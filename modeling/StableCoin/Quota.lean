import StableCoin.FixedWindow
import StableCoin.Run

/-!
# Quota records as a fixed-window limiter

The contract's quota records run the limiter of `FixedWindow`, one per
account: a transfer charges its sender's record with the limit in force, a
mint seeds its recipient's, and nothing else touches a record. `History.log`
reads the limiter's history of one account off the contract's, and
`Receipt.granted_iff` says that the limiter's grants are the fee shares the
contract asked for.
-/

namespace StableCoin

open Reentrancy FixedWindow

/-! ## Records -/

namespace FeeSharing

/-- The term a record stands for. -/
def term (r : FeeSharing) : Option Term :=
  (r START_HEIGHT).map fun start => ⟨start, (r.getOrDefault TXN_COUNT 0).toNat⟩

/-- What the contract's records look like: a count comes with a term, and
is never zero. -/
structure Wf (r : FeeSharing) : Prop where
  blank : r START_HEIGHT = none → r TXN_COUNT = none
  counted : ∀ n, r TXN_COUNT = some n → 1 ≤ n

variable {r : FeeSharing} {start : Int}

theorem Wf.count_nonneg (h : r.Wf) : 0 ≤ r.getOrDefault TXN_COUNT 0 := by
  cases hc : r TXN_COUNT with
  | none => simp [DictDB.getOrDefault, hc]
  | some n =>
      have := h.counted n hc
      simp only [DictDB.getOrDefault, hc, Option.getD_some]
      omega

theorem spend_term (limit : Int) (h : 0 ≤ r.getOrDefault TXN_COUNT 0)
    (hs : r START_HEIGHT = some start) :
    (r.spend limit).1.term
      = some (FixedWindow.spend limit ⟨start, (r.getOrDefault TXN_COUNT 0).toNat⟩).1
    ∧ (r.spend limit).2
      = (FixedWindow.spend limit ⟨start, (r.getOrDefault TXN_COUNT 0).toNat⟩).2 := by
  by_cases hc : r.getOrDefault TXN_COUNT 0 < limit
  · have hset : (r.set TXN_COUNT (r.getOrDefault TXN_COUNT 0 + 1)) START_HEIGHT
        = some start := by
      rw [DictDB.set_of_ne _ (by decide), hs]
    simp [FeeSharing.spend, FixedWindow.spend, term, hc, hset, Int.toNat_of_nonneg h]
    omega
  · simp [FeeSharing.spend, FixedWindow.spend, term, hc, hs, Int.toNat_of_nonneg h]

/-- Charging a record is charging its term. -/
theorem charge_term (now limit : Int) (h : r.Wf) :
    (r.charge now limit).1.term = some (step TERM_LENGTH now (.charge limit) r.term).1
    ∧ (r.charge now limit).2 = (step TERM_LENGTH now (.charge limit) r.term).2 := by
  cases hs : r START_HEIGHT with
  | none =>
      have hcount : (r.set START_HEIGHT now).getOrDefault TXN_COUNT 0 = 0 := by
        rw [DictDB.getOrDefault_set_of_ne _ (by decide)]
        simp [DictDB.getOrDefault, h.blank hs]
      have hspend := spend_term limit hcount.ge (DictDB.set_self r _ now)
      simpa [charge, hs, term, step, hcount] using hspend
  | some start =>
      have hspend := spend_term limit h.count_nonneg hs
      by_cases hlt : now < start + TERM_LENGTH
      · simpa [charge, hs, term, step, hlt] using hspend
      · have hset : ((r.set START_HEIGHT now).set TXN_COUNT 1) START_HEIGHT
            = some now := by
          rw [DictDB.set_of_ne _ (by decide), DictDB.set_self]
        simp [charge, hs, term, step, hlt, hset]

/-- Seeding a record is seeding its term. -/
theorem seed_term (now : Int) (r : FeeSharing) :
    (r.seed now).term = some (step TERM_LENGTH now .seed r.term).1 := by
  cases hs : r START_HEIGHT with
  | none =>
      have hset : ((r.set START_HEIGHT now).set TXN_COUNT 1) START_HEIGHT
          = some now := by
        rw [DictDB.set_of_ne _ (by decide), DictDB.set_self]
      simp [seed, hs, term, step, hset]
  | some start => simp [seed, hs, term, step]

theorem Wf.set_count (n : Int) (hn : 1 ≤ n) (hs : (r START_HEIGHT).isSome) :
    Wf (r.set TXN_COUNT n) where
  blank hb := by
    rw [DictDB.set_of_ne _ (by decide)] at hb
    simp [hb] at hs
  counted m hm := by
    rw [DictDB.set_self] at hm
    obtain rfl := Option.some.inj hm
    exact hn

theorem Wf.set_start (h : r.Wf) (now : Int) : Wf (r.set START_HEIGHT now) where
  blank hb := by simp at hb
  counted n hn := by
    rw [DictDB.set_of_ne _ (by decide)] at hn
    exact h.counted n hn

theorem Wf.spend (h : r.Wf) (hs : (r START_HEIGHT).isSome) (limit : Int) :
    (r.spend limit).1.Wf := by
  have := h.count_nonneg
  rw [FeeSharing.spend]
  split
  · exact .set_count _ (by omega) hs
  · exact h

theorem Wf.charge (h : r.Wf) (now limit : Int) : (r.charge now limit).1.Wf := by
  cases hs : r START_HEIGHT with
  | none =>
      simp only [FeeSharing.charge, hs]
      exact (h.set_start now).spend (by simp) limit
  | some start =>
      simp only [FeeSharing.charge, hs]
      split
      · exact h.spend (by simp [hs]) limit
      · exact .set_count 1 (le_refl 1) (by simp)

theorem Wf.seed (h : r.Wf) (now : Int) : (r.seed now).Wf := by
  cases hs : r START_HEIGHT with
  | none =>
      simp only [FeeSharing.seed, hs]
      exact .set_count 1 (le_refl 1) (by simp)
  | some start => simpa only [FeeSharing.seed, hs] using h

end FeeSharing

/-! ## One account's history -/

/-- All records are as the contract writes them. -/
def Records (s : Storage) : Prop := ∀ a, (s.whitelist a).Wf

theorem Fresh.records {s : Storage} (h : Fresh s) : Records s := by
  intro a
  rw [h.whitelist]
  exact ⟨fun _ => rfl, fun n hn => by cases hn⟩

theorem Records.effect {now : Int} {s s' : Storage} {c : Address} {m : Method}
    {evs : List Event} {fee : Int} (h : Records s)
    (he : Effect now s c m s' evs fee) : Records s' := by
  cases he with
  | @transfer _ _ _ limit =>
      exact BranchDB.forall_update (P := FeeSharing.Wf)
        (f := fun r => (r.charge now limit).1) h ((h c).charge now limit)
  | @mint _ dst =>
      exact BranchDB.forall_update (P := FeeSharing.Wf) (f := (·.seed now)) h
        ((h dst).seed now)
  | _ => exact h

def Method.isTransfer : Method → Bool
  | .transfer .. => true
  | _ => false

/-- A call that mints is no transfer. -/
theorem Method.isTransfer_of_minting {c : Address} {m : Method} {p : Address × Int}
    (h : m.minting c = some p) : m.isTransfer = false := by
  cases m <;> first | rfl | cases h

/-- A successful transfer by `u`. -/
def isTransferBy (u : Address) (e : Receipt) : Bool :=
  e.call.caller = u && e.call.method.isTransfer

/-- A successful transfer by `u` that was granted fee sharing. -/
def sponsored (u : Address) (e : Receipt) : Bool :=
  isTransferBy u e && e.after.feeSharing = 100

theorem isTransferBy_of_sponsored {u : Address} {e : Receipt}
    (h : sponsored u e = true) : isTransferBy u e = true := by
  simp only [sponsored, Bool.and_eq_true] at h
  exact h.1

/-- The limit in force. -/
def limitOf (s : Storage) : Int := s.freeDailyTxLimit.getD 0

theorem Effect.limitOf_eq {now : Int} {s s' : Storage} {c : Address} {m : Method}
    {evs : List Event} {fee : Int} (h : Effect now s c m s' evs fee)
    (hm : ∀ l, m ≠ .changeFreeDailyTxLimit l) : limitOf s' = limitOf s := by
  cases h with
  | changeFreeDailyTxLimit => exact absurd rfl (hm _)
  | _ => rfl

/-- What an accepted call asks of the limiter of `u`. -/
def quotaOp (u : Address) (e : Receipt) : Option Op :=
  if isTransferBy u e then some (.charge (limitOf e.before.storage))
  else match e.call.method.minting e.call.caller with
    | some (dst, _) => if dst = u then some .seed else none
    | none => none

def quotaItem (u : Address) (e : Receipt) : Option Item :=
  (quotaOp u e).map fun op => ⟨e.now, op, (e.before.storage.whitelist u).term⟩

/-- The operation of a transfer by `u`. -/
def chargeItem (u : Address) (e : Receipt) : Item :=
  ⟨e.now, .charge (limitOf e.before.storage), (e.before.storage.whitelist u).term⟩

theorem quotaItem_of_transfer {u : Address} {e : Receipt}
    (h : isTransferBy u e = true) : quotaItem u e = some (chargeItem u e) := by
  simp [quotaItem, quotaOp, h, chargeItem]

section

variable {u : Address} {e : Receipt} {i : Item}

theorem now_of_quotaItem (h : quotaItem u e = some i) : i.now = e.now := by
  obtain ⟨op, -, rfl⟩ := Option.map_eq_some_iff.mp h
  rfl

theorem prior_of_quotaItem (h : quotaItem u e = some i) :
    i.prior = (e.before.storage.whitelist u).term := by
  obtain ⟨op, -, rfl⟩ := Option.map_eq_some_iff.mp h
  rfl

/-- A transfer by `u` charges its limiter with the limit in force, a call
that mints for `u` seeds it. -/
theorem quotaItem_cases (h : quotaItem u e = some i) :
    isTransferBy u e = true ∧ e.call.method.minting e.call.caller = none
        ∧ i.op = .charge (limitOf e.before.storage)
      ∨ (∃ value, e.call.method.minting e.call.caller = some (u, value))
        ∧ i.op = .seed := by
  obtain ⟨op, hop, rfl⟩ := Option.map_eq_some_iff.mp h
  cases hm : e.call.method.minting e.call.caller with
  | none =>
      by_cases ht : isTransferBy u e = true
      · rw [quotaOp, if_pos ht] at hop
        exact Or.inl ⟨ht, rfl, (Option.some.inj hop).symm⟩
      · simp [quotaOp, ht, hm] at hop
  | some p =>
      obtain ⟨dst, value⟩ := p
      have ht : isTransferBy u e = false := by
        simp [isTransferBy, Method.isTransfer_of_minting hm]
      by_cases hdu : dst = u
      · subst hdu
        simp [quotaOp, ht, hm] at hop
        exact Or.inr ⟨⟨value, rfl⟩, hop.symm⟩
      · simp [quotaOp, ht, hm, hdu] at hop

/-- Only a transfer charges a limiter. -/
theorem limit_of_quotaItem (h : quotaItem u e = some i) {limit : Int}
    (hop : i.op = .charge limit) :
    isTransferBy u e = true ∧ limit = limitOf e.before.storage := by
  rcases quotaItem_cases h with ⟨ht, -, hcharge⟩ | ⟨-, hseed⟩
  · rw [hop] at hcharge
    injection hcharge with hlimit
    exact ⟨ht, hlimit⟩
  · rw [hop] at hseed
    cases hseed

end

/-- An accepted call that asks nothing of `u`'s limiter leaves the record
of `u` alone; the others leave it as the limiter does, and the use is
granted exactly when the contract asked for the fee share. -/
theorem Effect.quota {u : Address} {e : Receipt} {evs : List Event}
    (h : Effect e.now e.before.storage e.call.caller e.call.method e.after.storage evs
      e.after.feeSharing) (hw : Records e.before.storage) :
    match quotaItem u e with
    | none => e.after.storage.whitelist u = e.before.storage.whitelist u
        ∧ sponsored u e = false
    | some i => (e.after.storage.whitelist u).term = some (i.term TERM_LENGTH)
        ∧ sponsored u e = i.granted TERM_LENGTH := by
  obtain ⟨now, ⟨c, m⟩, ⟨s, evs₀, fee₀⟩, ⟨s', evs', fee⟩⟩ := e
  simp only at h hw
  cases h with
  | @transfer dst value data limit hl hv hb hd hp =>
      by_cases hcu : c = u
      · subst hcu
        obtain ⟨hterm, hgranted⟩ :=
          FeeSharing.charge_term now limit (hw c)
        simp [quotaItem, quotaOp, isTransferBy, Method.isTransfer, limitOf, hl,
          sponsored, Item.term, Item.granted, hterm, ← hgranted]
      · simp [quotaItem, quotaOp, isTransferBy, Method.minting, sponsored, hcu,
          BranchDB.update_of_ne _ (Ne.symm hcu)]
  | @mint m dst value hm =>
      have hno := Method.isTransfer_of_minting hm
      by_cases hdu : dst = u
      · subst hdu
        simp [quotaItem, quotaOp, isTransferBy, hno, hm, sponsored, Item.term,
          Item.granted, FeeSharing.seed_term, step_seed]
      · simp [quotaItem, quotaOp, isTransferBy, hno, hm, sponsored, hdu,
          BranchDB.update_of_ne _ (Ne.symm hdu)]
  | _ =>
      simp [quotaItem, quotaOp, isTransferBy, Method.isTransfer, Method.minting,
        sponsored]

/-- The operations that a history asks of the limiter of `u`. -/
def quotaLog (u : Address) (tr : List Receipt) : List Item := tr.filterMap (quotaItem u)

namespace History

variable {s₀ s : Storage} {tr : List Receipt}

theorem records (h : History s₀ tr s) (hw : Records s₀) :
    Records s ∧ ∀ e ∈ tr, Records e.before.storage :=
  ⟨(h.invariant Records.effect hw).1, fun e he => ((h.invariant Records.effect hw).2 e he).1⟩

/-- **The contract runs the limiter.** The history of the contract is, for
each account, a history of its limiter. -/
theorem log (h : History s₀ tr s) (hw : Records s₀) (u : Address) :
    Log TERM_LENGTH (s₀.whitelist u).term (quotaLog u tr) (s.whitelist u).term := by
  induction h using History.receipts with
  | nil => exact .nil
  | @next tr e evs h he _ hn ih =>
      have hquota := he.quota (u := u) (h.records hw).1
      rw [quotaLog, List.filterMap_append]
      cases hi : quotaItem u e with
      | none =>
          rw [hi] at hquota
          simp only [List.filterMap_cons, hi, List.filterMap_nil, List.append_nil]
          rw [hquota.1]
          exact ih
      | some i =>
          rw [hi] at hquota
          simp only [List.filterMap_cons, hi, List.filterMap_nil]
          rw [hquota.1]
          refine .snoc ih (prior_of_quotaItem hi) ?_
          intro j hj
          obtain ⟨d, hd, hdj⟩ := List.mem_filterMap.mp hj
          rw [now_of_quotaItem hdj, now_of_quotaItem hi]
          exact hn d hd

/-- What the limiter grants is what the contract sponsors. -/
theorem sponsored_eq (h : History s₀ tr s) (hw : Records s₀) (u : Address) :
    ∀ e ∈ tr, sponsored u e
      = ((quotaItem u e).map (Item.granted TERM_LENGTH)).getD false := by
  intro e hin
  obtain ⟨evs, he, -⟩ := h.effect e hin
  have hquota := Effect.quota (u := u) he ((h.records hw).2 e hin)
  cases hi : quotaItem u e with
  | none =>
      rw [hi] at hquota
      exact hquota.2
  | some i =>
      rw [hi] at hquota
      exact hquota.2

end History

end StableCoin
