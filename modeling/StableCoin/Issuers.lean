import StableCoin.Run

/-!
# The issuer registry

The issuers array and the allowances say the same thing: nobody is listed
twice, nobody outside the array has an allowance, and the array stays
within the cap. Each of the three needs the others - removal takes out one
entry only because there are no duplicates, and what is taken out has its
allowance cleared.
-/

namespace StableCoin

open Reentrancy

/-- The low 32 bits never exceed the number they are taken from. -/
theorem intValue_le {n : Int} (h : 0 ≤ n) : intValue n ≤ n := by
  rw [intValue, BitVec.toInt_ofInt, Int.bmod]
  split <;> omega

/-! ## Adding and removing -/

section

variable {now : Int} {s s' : Storage} {c issuer : Address} {evs : List Event} {fee : Int}

theorem Effect.removeIssuer_iff :
    Effect now s c (.removeIssuer issuer) s' evs fee ↔
      (s.admin = some c ∧ issuer ∈ s.issuers)
      ∧ s' = { s with
          issuers := SwapRemove.swapRemove issuer s.issuers
          allowances := s.allowances.set issuer 0 }
      ∧ evs = [.RemoveIssuer c issuer (issuerAllowance s issuer)] ∧ fee = 0 := by
  constructor
  · intro h
    cases h with
    | removeIssuer ha hi => exact ⟨⟨ha, hi⟩, rfl, rfl, rfl⟩
    | mint hm => cases hm
  · rintro ⟨⟨ha, hi⟩, rfl, rfl, rfl⟩
    exact .removeIssuer ha hi

theorem Effect.addIssuer_iff :
    Effect now s c (.addIssuer issuer) s' evs fee ↔
      (s.admin = some c ∧ issuer ∉ s.issuers
        ∧ ∃ n, s.nIssuers = some n ∧ (s.issuers.length : Int) < intValue n)
      ∧ s' = { s with issuers := s.issuers ++ [issuer] }
      ∧ evs = [.AddIssuer c issuer] ∧ fee = 0 := by
  constructor
  · intro h
    cases h with
    | addIssuer ha hi hn hlt => exact ⟨⟨ha, hi, _, hn, hlt⟩, rfl, rfl, rfl⟩
    | mint hm => cases hm
  · rintro ⟨⟨ha, hi, n, hn, hlt⟩, rfl, rfl, rfl⟩
    exact .addIssuer ha hi hn hlt

end

/-! ## The registry -/

structure Registry (s : Storage) : Prop where
  nodup : s.issuers.Nodup
  cap : ∃ n, s.nIssuers = some n ∧ 0 < n ∧ (s.issuers.length : Int) ≤ n
  listed : ∀ a, issuerAllowance s a ≠ 0 → a ∈ s.issuers

theorem Fresh.registry {s : Storage} (h : Fresh s) : Registry s where
  nodup := h.issuers ▸ .nil
  cap := by
    obtain ⟨n, hn, hpos⟩ := h.cap
    exact ⟨n, hn, hpos, by simpa [h.issuers] using hpos.le⟩
  listed a ha := absurd (h.issuerAllowance_eq a) ha

section

variable {now : Int} {s s' : Storage} {c : Address} {m : Method}
  {evs : List Event} {fee : Int}

/-- Writing an allowance of a listed account keeps the others' accounts
listed. -/
theorem Registry.listed_set (h : Registry s) {issuer : Address}
    (hi : issuer ∈ s.issuers) (v : Int) (a : Address)
    (ha : (s.allowances.set issuer v).getOrDefault a 0 ≠ 0) : a ∈ s.issuers := by
  by_cases hai : a = issuer
  · exact hai ▸ hi
  · rw [DictDB.getOrDefault_set_of_ne _ hai] at ha
    exact h.listed a ha

theorem Registry.effect (h : Registry s) (he : Effect now s c m s' evs fee) :
    Registry s' := by
  cases he with
  | @addIssuer issuer n ha hi hn hlt =>
      obtain ⟨n', hn', hpos, hle⟩ := h.cap
      obtain rfl := Option.some.inj (hn.symm.trans hn')
      have hint := intValue_le hpos.le
      refine ⟨?_, ⟨n, hn, hpos, ?_⟩, fun a hal => List.mem_append_left _ (h.listed a hal)⟩
      · exact List.nodup_append.mpr ⟨h.nodup, by simp, by
          rintro x hx y hy rfl
          exact hi (List.mem_singleton.mp hy ▸ hx)⟩
      · simp only [List.length_append, List.length_singleton]
        push_cast
        omega
  | @removeIssuer issuer ha hi =>
      obtain ⟨n, hn, hpos, hle⟩ := h.cap
      refine ⟨SwapRemove.swapRemove_nodup h.nodup, ⟨n, hn, hpos, ?_⟩, ?_⟩
      · simp only [SwapRemove.swapRemove_length]
        omega
      · intro a hal
        rw [SwapRemove.mem_swapRemove h.nodup hi]
        by_cases hai : a = issuer
        · subst hai
          simp [issuerAllowance] at hal
        · exact ⟨h.listed_set hi 0 a hal, hai⟩
  | @approve issuer value ha hi => exact { h with listed := h.listed_set hi value }
  | @mint m dst value hm hd hv hi hp ha =>
      exact { h with listed := h.listed_set hi _ }
  | _ => exact { h with }

end

/-- **The registry is consistent.** In every reachable configuration no
issuer is listed twice, there are at most `nIssuers` of them, and only they
have an allowance; so one that is added, again or for the first time, starts
with none. -/
theorem registry_consistent {c : Network} (h : Reachable c) :
    c.cur.state.storage.issuers.Nodup
    ∧ (∃ n, c.cur.state.storage.nIssuers = some n
      ∧ (c.cur.state.storage.issuers.length : Int) ≤ n)
    ∧ (∀ a, issuerAllowance c.cur.state.storage a ≠ 0 →
      a ∈ c.cur.state.storage.issuers)
    ∧ ∀ k w issuer, k.method = .addIssuer issuer →
      (body c.now k c.cur.state).first = some w →
      issuerAllowance w.storage issuer = 0 := by
  have hreg : Registry c.cur.state.storage := h.invariant Fresh.registry Registry.effect
  obtain ⟨n, hn, -, hle⟩ := hreg.cap
  refine ⟨hreg.nodup, ⟨n, hn, hle⟩, hreg.listed, ?_⟩
  intro k w issuer hm hk
  obtain ⟨evs, he, -⟩ := h.effect hk
  rw [hm, Effect.addIssuer_iff] at he
  obtain ⟨⟨-, hi, -⟩, hs, -⟩ := he
  rw [hs]
  by_contra hal
  exact hi (hreg.listed issuer hal)

theorem registry_consistent_funded :
    Sample.funded.cur.state.storage.issuers = [Sample.admin]
    ∧ issuerAllowance (Sample.after ⟨Sample.admin, .addIssuer Sample.shop⟩).storage
      Sample.shop = 0 :=
  ⟨rfl, (registry_consistent Sample.funded_reachable).2.2.2
    ⟨Sample.admin, .addIssuer Sample.shop⟩ _ Sample.shop rfl rfl⟩

end StableCoin
