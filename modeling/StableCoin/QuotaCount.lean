import StableCoin.Sponsorship
import StableCoin.Whitelist

/-!
# The counter is exact

`TXN_COUNT` is written in four places, with different values, and the fee
share is asked for apart from the counting. The two stay in step all the same:
since its start was stored, an account's count is the number of its sponsored
transfers, and one more if it was a mint that stored the start.
-/

namespace StableCoin

open Reentrancy FixedWindow

/-- The call stored the start `start` for `u`. -/
def Stores (u : Address) (start : Int) (e : Receipt) : Prop :=
  e.before.storage.whitelist u START_HEIGHT ≠ some start
    ∧ e.after.storage.whitelist u START_HEIGHT = some start

/-! ## One call -/

section

variable {u : Address} {start : Int} {e : Receipt} {i : Item}

theorem seed_iff_of_quotaItem (h : quotaItem u e = some i) :
    i.op = .seed ↔ mintsTo u e = true := by
  rcases quotaItem_cases h with ⟨-, hm, hop⟩ | ⟨⟨value, hm⟩, hop⟩
  · simp [mintsTo, hm, hop]
  · simp [mintsTo, hm, hop]

theorem touches_of_quotaItem (h : quotaItem u e = some i) : touches u e = true := by
  rcases quotaItem_cases h with ⟨ht, -⟩ | ⟨⟨value, hm⟩, -⟩
  · simp [touches, ht]
  · simp [touches, mintsTo, hm]

/-- A call that stores a start opens a term of the limiter. -/
theorem Effect.item_of_stores {evs : List Event}
    (h : Effect e.now e.before.storage e.call.caller e.call.method e.after.storage evs
      e.after.feeSharing) (hw : Records e.before.storage) (hs : Stores u start e) :
    ∃ i, quotaItem u e = some i ∧ i.Opens TERM_LENGTH
      ∧ (i.term TERM_LENGTH).start = start := by
  have hquota := h.quota (u := u) hw
  obtain ⟨hold, hnew⟩ := hs
  cases hi : quotaItem u e with
  | none =>
      rw [hi] at hquota
      exact absurd (hquota.1 ▸ hnew) hold
  | some i =>
      rw [hi] at hquota
      have hstart := FeeSharing.start_of_term hquota.1
      obtain heq := Option.some.inj (hstart.symm.trans hnew)
      refine ⟨i, rfl, ?_, heq⟩
      intro t ht hts
      rw [prior_of_quotaItem hi] at ht
      rw [FeeSharing.start_of_term ht, hts, heq] at hold
      exact hold rfl

end

/-! ## Runs -/

/-- The count at the end of a history, from the call that stored the start. -/
theorem History.count_eq {s₀ s : Storage} {pre post : List Receipt} {e : Receipt}
    (h : History s₀ (pre ++ e :: post) s) (hf : Fresh s₀) {u : Address} {start : Int}
    (hs : s.whitelist u START_HEIGHT = some start) (he : Stores u start e) :
    (s.whitelist u).getOrDefault TXN_COUNT 0
      = ((e :: post).countP (sponsored u) : Int) + if mintsTo u e then 1 else 0 := by
  have hin : e ∈ pre ++ e :: post := by simp
  obtain ⟨hrec, hrecs⟩ := h.records hf.records
  obtain ⟨evs, heff, -⟩ := h.effect e hin
  obtain ⟨i, hi, hopens, hstart⟩ := heff.item_of_stores (hrecs e hin) he
  have hlog := h.log_of_fresh hf u
  have hsplit : quotaLog u (pre ++ e :: post) = quotaLog u pre ++ i :: quotaLog u post := by
    simp [quotaLog, List.filterMap_cons_some hi]
  rw [hsplit, FeeSharing.term_of_start hs] at hlog
  have hused := hlog.used_of_opens TERM_LENGTH_pos hopens hstart
  -- what the limiter granted since then is what the contract sponsored
  obtain ⟨m, hm, hsince⟩ := h.split
  have hcount : (i :: quotaLog u post).countP (Item.granted TERM_LENGTH)
      = (e :: post).countP (sponsored u) := by
    have hlogged := hsince.countP_quotaLog (hm.records hf.records).1 u fun _ => true
    rw [quotaLog, List.filterMap_cons_some hi] at hlogged
    simp only [Bool.and_true] at hlogged
    exact hlogged
  simp only [hcount, seed_iff_of_quotaItem hi] at hused
  rw [← Int.toNat_of_nonneg (hrec u).count_nonneg, hused]
  push_cast
  rfl

/-- **The counter is exact.** In every reachable configuration and for every
account: if it has a start, some call stored it, a mint to the account or a
transfer by it, and the account's count is the number of its sponsored
transfers from that call on, and one more if it was a mint. An account without
a start has no count. -/
theorem count_exact {c : Network} (h : Reachable c) (u : Address) :
    (∀ start, c.cur.state.storage.whitelist u START_HEIGHT = some start →
      (∃ pre e post, c.cur.trace = pre ++ e :: post ∧ Stores u start e
        ∧ touches u e = true)
      ∧ ∀ pre e post, c.cur.trace = pre ++ e :: post → Stores u start e →
        (c.cur.state.storage.whitelist u).getOrDefault TXN_COUNT 0
          = ((e :: post).countP (sponsored u) : Int) + if mintsTo u e then 1 else 0)
    ∧ (c.cur.state.storage.whitelist u START_HEIGHT = none →
      c.cur.state.storage.whitelist u TXN_COUNT = none) := by
  obtain ⟨s₀, hf, hist, -⟩ := h.history
  obtain ⟨hrec, hrecs⟩ := hist.records hf.records
  refine ⟨?_, (hrec u).blank⟩
  intro start hs
  refine ⟨?_, ?_⟩
  · have hnone : ¬ s₀.whitelist u START_HEIGHT = some start := by simp [hf.whitelist]
    obtain ⟨pre, e, post, htr, hstore⟩ :=
      hist.exists_onset (p := fun s => s.whitelist u START_HEIGHT = some start) hnone hs
    have hin : e ∈ c.cur.trace := by simp [htr]
    obtain ⟨evs, heff, -⟩ := hist.effect e hin
    obtain ⟨i, hi, -⟩ := heff.item_of_stores (hrecs e hin) hstore
    exact ⟨pre, e, post, htr, hstore, touches_of_quotaItem hi⟩
  · intro pre e post htr hstore
    rw [htr] at hist
    exact hist.count_eq hf hs hstore

theorem count_exact_paid : ∃ pre e post, Sample.paid.cur.trace = pre ++ e :: post
    ∧ Stores Sample.holder 100 e
    ∧ (3 : Int) = ((e :: post).countP (sponsored Sample.holder) : Int)
      + if mintsTo Sample.holder e then 1 else 0 := by
  obtain ⟨⟨pre, e, post, htr, hstore, -⟩, hcount⟩ :=
    (count_exact Sample.paid_reachable Sample.holder).1 100 rfl
  exact ⟨pre, e, post, htr, hstore, hcount pre e post htr hstore⟩

end StableCoin
