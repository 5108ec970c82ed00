import StableCoin.Issuers

/-!
# Who is taken out of the issuers array, and how many fit in

Removal takes out one issuer, wherever it stands, because nobody is listed
twice. The cap is enforced through a 32-bit conversion of `nIssuers`: below
`2 ^ 31` it is the number the contract was deployed with, from there on a
different and smaller one.
-/

namespace StableCoin

open Reentrancy

/-! ## Removal -/

/-- **Removal takes out exactly one issuer.** The admin can remove whoever is
listed: the array loses that entry and nothing else, its last entry moves into
the gap, the removed account's allowance is cleared, the others' stay, and the
event carries the allowance it had. Nobody can remove an account that is not
listed; and removing one just added restores the array. -/
theorem removeIssuer_exact {c : Network} (h : Reachable c) (now : Int) {admin : Address}
    (hadmin : c.cur.state.storage.admin = some admin) (a : Address) :
    (a ∈ c.cur.state.storage.issuers →
      ∃ w, body now ⟨admin, .removeIssuer a⟩ c.cur.state = .done () w
        ∧ SwapRemove.SwappedOut a c.cur.state.storage.issuers w.storage.issuers
        ∧ issuerAllowance w.storage a = 0
        ∧ (∀ b, b ≠ a →
          issuerAllowance w.storage b = issuerAllowance c.cur.state.storage b)
        ∧ w.events = c.cur.state.events
          ++ [.RemoveIssuer admin a (issuerAllowance c.cur.state.storage a)])
    ∧ (a ∉ c.cur.state.storage.issuers → ∀ caller, ∃ e,
      body now ⟨caller, .removeIssuer a⟩ c.cur.state = .abort e)
    ∧ ∀ w, body now ⟨admin, .addIssuer a⟩ c.cur.state = .done () w → ∀ now', ∃ w',
      body now' ⟨admin, .removeIssuer a⟩ w = .done () w'
        ∧ w'.storage.issuers = c.cur.state.storage.issuers := by
  have hreg : Registry c.cur.state.storage := h.invariant Fresh.registry Registry.effect
  refine ⟨?_, ?_, ?_⟩
  · intro ha
    have he : Effect now c.cur.state.storage admin (.removeIssuer a) _ _ _ :=
      .removeIssuer hadmin ha
    refine ⟨_, he.done (k := ⟨admin, .removeIssuer a⟩) rfl,
      SwapRemove.swappedOut_swapRemove hreg.nodup ha, ?_, ?_, rfl⟩
    · exact DictDB.getOrDefault_set_self ..
    · intro b hb
      exact DictDB.getOrDefault_set_of_ne _ hb ..
  · intro ha caller
    refine body_abort h.deployed ?_
    intro s evs fee he
    exact ha (Effect.removeIssuer_iff.mp he).1.2
  · intro w hw now'
    obtain ⟨s, evs, fee, he, rfl⟩ := Effect.of_first h.deployed (Outcome.first_of_done hw)
    obtain ⟨-, rfl, -, -⟩ := Effect.addIssuer_iff.mp he
    have hremove : Effect now'
        { c.cur.state.storage with issuers := c.cur.state.storage.issuers ++ [a] } admin
        (.removeIssuer a) _ _ _ := .removeIssuer hadmin (by simp)
    refine ⟨_, Effect.done (k := ⟨admin, .removeIssuer a⟩) hremove rfl, ?_⟩
    simp [SwapRemove.swapRemove_concat]

theorem removeIssuer_exact_funded :
    ∃ w, body 200 ⟨Sample.admin, .removeIssuer Sample.admin⟩ Sample.funded.cur.state
        = .done () w
      ∧ Sample.admin ∉ w.storage.issuers
      ∧ w.events = Sample.funded.cur.state.events
        ++ [.RemoveIssuer Sample.admin Sample.admin 4000] := by
  obtain ⟨w, hw, hout, -, -, hev⟩ := (@removeIssuer_exact Sample.funded
    Sample.funded_reachable 200 Sample.admin rfl Sample.admin).1 (by decide)
  exact ⟨w, hw, hout.gone, hev⟩

/-! ## The cap -/

theorem intValue_lt (n : Int) : intValue n < 2 ^ 31 :=
  BitVec.toInt_lt

/-- A number that fits in 32 bits is its own conversion. -/
theorem intValue_eq {n : Int} (h : 0 ≤ n) (hlt : n < 2 ^ 31) : intValue n = n := by
  rw [intValue, BitVec.toInt_ofInt]
  exact Int.bmod_eq_of_le_mul_two (by push_cast; omega) (by push_cast; omega)

/-- The maximum number of issuers of a deployment: two when none is given. -/
def issuerCap (nIssuers : Int) : Int := if nIssuers = 0 then 2 else nIssuers

theorem nIssuers_of_constructor {name symbol : String} {decimals nIssuers : Int}
    {admin : Address} {w : World}
    (hw : constructor name symbol decimals admin nIssuers ⟨Storage.empty, [], 0⟩
      = .done () w) :
    w.storage.nIssuers = some (issuerCap nIssuers) ∧ 0 < issuerCap nIssuers := by
  have hfirst := Outcome.first_of_done hw
  simp [constructor, Storage.empty] at hfirst
  obtain ⟨-, -, -, hn, -, rfl⟩ := hfirst
  exact ⟨rfl, hn⟩

theorem Effect.nIssuers_eq {now : Int} {s s' : Storage} {c : Address} {m : Method}
    {evs : List Event} {fee : Int} (h : Effect now s c m s' evs fee) :
    s'.nIssuers = s.nIssuers := by
  cases h <;> rfl

/-- In `c` the admin can add an account that is not listed exactly while there
are fewer than `n` issuers, and that only appends it to the array. -/
def CapExact (n : Int) (c : Network) : Prop :=
  ∀ now admin a, c.cur.state.storage.admin = some admin →
    a ∉ c.cur.state.storage.issuers →
    ((∃ w, body now ⟨admin, .addIssuer a⟩ c.cur.state = .done () w)
      ↔ (c.cur.state.storage.issuers.length : Int) < n)
    ∧ ∀ w, body now ⟨admin, .addIssuer a⟩ c.cur.state = .done () w →
      w.storage = { c.cur.state.storage with
        issuers := c.cur.state.storage.issuers ++ [a] }

/-- What the code compares with is the 32-bit conversion. -/
theorem addIssuer_done_iff {now : Int} {w : World} (hd : Deployed w.storage)
    {admin a : Address} (hadmin : w.storage.admin = some admin)
    (ha : a ∉ w.storage.issuers) {n : Int} (hn : w.storage.nIssuers = some n) :
    (∃ w', body now ⟨admin, .addIssuer a⟩ w = .done () w')
      ↔ (w.storage.issuers.length : Int) < intValue n := by
  constructor
  · rintro ⟨w', hw⟩
    obtain ⟨s, evs, fee, he, -⟩ := Effect.of_first hd (Outcome.first_of_done hw)
    obtain ⟨⟨-, -, n', hn', hlt⟩, -⟩ := Effect.addIssuer_iff.mp he
    obtain rfl := Option.some.inj (hn.symm.trans hn')
    exact hlt
  · intro hlt
    have he : Effect now w.storage admin (.addIssuer a) _ _ _ :=
      .addIssuer hadmin ha hn hlt
    exact ⟨_, he.done (k := ⟨admin, .addIssuer a⟩) rfl⟩

/-! ## Filling the array -/

/-- Externally owned accounts, one for each number. -/
def account (i : Nat) : Address := ⟨false, BitVec.ofNat 160 i⟩

theorem account_inj {i j : Nat} (hi : i < 2 ^ 160) (hj : j < 2 ^ 160)
    (h : account i = account j) : i = j := by
  have hbody := congrArg (fun a => a.body.toNat) h
  simp only [account, BitVec.toNat_ofNat] at hbody
  rwa [Nat.mod_eq_of_lt hi, Nat.mod_eq_of_lt hj] at hbody

theorem account_notMem {m : Nat} (hm : m < 2 ^ 160) :
    account m ∉ (List.range m).map account := by
  intro hin
  obtain ⟨i, hi, heq⟩ := List.mem_map.mp hin
  have hlt := List.mem_range.mp hi
  exact hlt.ne (account_inj (hlt.trans hm) hm heq)

/-- Issuers can be added up to the number that the code compares with. -/
theorem Reachable.exists_filled {c : Network} (h : Reachable c)
    (hi : c.cur.state.storage.issuers = []) {n : Int}
    (hn : c.cur.state.storage.nIssuers = some n) (m : Nat)
    (hm : (m : Int) ≤ max 0 (intValue n)) :
    ∃ c', Steps body c c' ∧ c'.cur.state.storage.issuers = (List.range m).map account
      ∧ c'.cur.state.storage.nIssuers = some n := by
  induction m with
  | zero => exact ⟨c, .refl, hi, hn⟩
  | succ m ih =>
      obtain ⟨c₁, hs₁, hi₁, hn₁⟩ := ih (by omega)
      have h₁ := h.steps hs₁
      obtain ⟨admin, ha⟩ := Option.isSome_iff_exists.mp h₁.deployed.admin
      have hbound := intValue_lt n
      have hnew : account m ∉ c₁.cur.state.storage.issuers :=
        hi₁ ▸ account_notMem (by omega)
      have hroom : (c₁.cur.state.storage.issuers.length : Int) < intValue n := by
        rw [hi₁, List.length_map, List.length_range]
        omega
      obtain ⟨c₂, hg, hs₂⟩ := h₁.accept (k := ⟨admin, .addIssuer (account m)⟩)
        (.addIssuer ha hnew hn₁ hroom)
      refine ⟨c₂, hs₁.trans hg.steps, ?_, ?_⟩
      · rw [hs₂, List.range_succ, List.map_append, ← hi₁]
        rfl
      · rw [hs₂]
        exact hn₁

/-- **The cap is exact below `2 ^ 31`, and only there.** For every deployment
that the constructor accepts: the admin can add issuers exactly while there are
fewer than the number it was deployed with, in every state that a run of it
reaches, if and only if that number is less than `2 ^ 31`. -/
theorem capExact_iff {name symbol : String} {decimals nIssuers : Int} {admin : Address}
    {w : World} (hw : constructor name symbol decimals admin nIssuers
      ⟨Storage.empty, [], 0⟩ = .done () w) (now : Int) :
    (∀ c, Steps body ⟨now, ⟨w, []⟩, []⟩ c → CapExact (issuerCap nIssuers) c)
      ↔ issuerCap nIssuers < 2 ^ 31 := by
  obtain ⟨hn, hpos⟩ := nIssuers_of_constructor hw
  have hdep : Deployment w := ⟨name, symbol, decimals, admin, nIssuers, hw⟩
  have hstart : Reachable ⟨now, ⟨w, []⟩, []⟩ := ⟨now, w, hdep, .refl⟩
  constructor
  · intro hall
    by_contra hbig
    -- a state in which the code accepts no further issuer
    let m := (max 0 (intValue (issuerCap nIssuers))).toNat
    obtain ⟨c, hs, hi, hnc⟩ := hstart.exists_filled hdep.fresh.1.issuers hn m (by omega)
    have h := hstart.steps hs
    obtain ⟨a, ha⟩ := Option.isSome_iff_exists.mp h.deployed.admin
    have hbound := intValue_lt (issuerCap nIssuers)
    have hnew : account m ∉ c.cur.state.storage.issuers := hi ▸ account_notMem (by omega)
    have hlen : (c.cur.state.storage.issuers.length : Int) = m := by
      rw [hi, List.length_map, List.length_range]
    have hexact := (hall c hs now a (account m) ha hnew).1
    rw [addIssuer_done_iff h.deployed ha hnew hnc, hlen] at hexact
    omega
  · intro hsmall c hs now' a b ha hb
    have h := hstart.steps hs
    have hist := hstart.segment hs rfl
    have hnc : c.cur.state.storage.nIssuers = some (issuerCap nIssuers) :=
      (hist.invariant (P := fun s => s.nIssuers = some (issuerCap nIssuers))
        (fun hs he => he.nIssuers_eq.trans hs) hn).1
    refine ⟨?_, ?_⟩
    · rw [addIssuer_done_iff h.deployed ha hb hnc, intValue_eq hpos.le hsmall]
    · intro w' hw'
      obtain ⟨s, evs, fee, he, rfl⟩ :=
        Effect.of_first h.deployed (Outcome.first_of_done hw')
      exact (Effect.addIssuer_iff.mp he).2.1

theorem capExact_funded : CapExact 2 Sample.funded :=
  (@capExact_iff "Coin" "C" 6 0 Sample.admin Sample.start.cur.state rfl 100).mpr (by decide)
    Sample.funded (Network.run_steps _ _)

/-- Deployed for `2 ^ 31` issuers, the contract accepts none. -/
theorem not_capExact : ¬ ∀ name symbol decimals admin nIssuers w,
    constructor name symbol decimals admin nIssuers ⟨Storage.empty, [], 0⟩ = .done () w →
    ∀ now c, Steps body ⟨now, ⟨w, []⟩, []⟩ c → CapExact (issuerCap nIssuers) c := by
  intro h
  let w : World := ((constructor "Coin" "C" 6 Sample.admin 2147483648
    ⟨Storage.empty, [], 0⟩).first).getD ⟨Storage.empty, [], 0⟩
  have hexact := h "Coin" "C" 6 Sample.admin 2147483648 w rfl 100 _ .refl
  have hadd : ∃ w', body 100 ⟨Sample.admin, .addIssuer Sample.admin⟩ w = .done () w' :=
    (hexact 100 Sample.admin Sample.admin rfl (List.not_mem_nil)).1.mpr (by decide)
  have hdep : Deployed w.storage := ⟨rfl, rfl, rfl, rfl, rfl⟩
  exact absurd ((addIssuer_done_iff hdep rfl List.not_mem_nil rfl).mp hadd) (by decide)

end StableCoin
