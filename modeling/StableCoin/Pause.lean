import StableCoin.Run

/-!
# The pause

Every call that would move tokens, or touch a quota record on the way,
checks the pause flag before it hands control away, and what is left of a
call after its callback writes nothing. So from the moment the flag is set
until somebody clears it the ledger stands still, whatever was in flight at
that moment.
-/

namespace StableCoin

open Reentrancy

/-! ## One call -/

/-- Balances, supply and quota records are the same. -/
structure Frozen (s s' : Storage) : Prop where
  balances : s'.balances = s.balances
  totalSupply : s'.totalSupply = s.totalSupply
  whitelist : s'.whitelist = s.whitelist

theorem Frozen.refl (s : Storage) : Frozen s s := ⟨rfl, rfl, rfl⟩

theorem Frozen.trans {s₁ s₂ s₃ : Storage} (h : Frozen s₁ s₂) (h' : Frozen s₂ s₃) :
    Frozen s₁ s₃ :=
  ⟨h'.balances.trans h.balances, h'.totalSupply.trans h.totalSupply,
    h'.whitelist.trans h.whitelist⟩

theorem Frozen.symm {s s' : Storage} (h : Frozen s s') : Frozen s' s :=
  ⟨h.balances.symm, h.totalSupply.symm, h.whitelist.symm⟩

/-- The only allowances that a call `k` changed are that of an account which
its caller, the admin, approves or removes. -/
def OnlyAdminSets (k : Call) (s s' : Storage) : Prop :=
  ∀ a, s'.allowances a ≠ s.allowances a → s.admin = some k.caller
    ∧ (k.method = .removeIssuer a ∨ ∃ value, k.method = .approve a value)

section

variable {now : Int} {s s' : Storage} {c : Address} {m : Method}
  {evs : List Event} {fee : Int}

theorem Effect.frozen (h : Effect now s c m s' evs fee) (hp : s.paused = some true) :
    Frozen s s' := by
  cases h with
  | transfer _ _ _ _ hrun => simp [hp] at hrun
  | mint _ _ _ _ hrun => simp [hp] at hrun
  | burn _ _ _ hrun => simp [hp] at hrun
  | _ => exact ⟨rfl, rfl, rfl⟩

theorem Effect.onlyAdminSets (h : Effect now s c m s' evs fee)
    (hp : s.paused = some true) : OnlyAdminSets ⟨c, m⟩ s s' := by
  intro a ha
  cases h with
  | removeIssuer hadmin _ =>
      obtain rfl := DictDB.eq_of_set_ne ha
      exact ⟨hadmin, Or.inl rfl⟩
  | @approve _ value hadmin _ =>
      obtain rfl := DictDB.eq_of_set_ne ha
      exact ⟨hadmin, Or.inr ⟨value, rfl⟩⟩
  | mint _ _ _ _ hrun => simp [hp] at hrun
  | _ => exact absurd rfl ha

/-- Only `togglePause` moves the flag. -/
theorem Effect.paused_eq (h : Effect now s c m s' evs fee) (hm : m ≠ .togglePause) :
    s'.paused = s.paused := by
  cases h with
  | togglePause => exact absurd rfl hm
  | _ => rfl

end

/-! ## A stretch -/

/-- From a paused storage, calls that leave the flag alone change nothing. -/
theorem History.frozen {s s' : Storage} {tr : List Receipt} (h : History s tr s')
    (hp : s.paused = some true) (htr : ∀ d ∈ tr, d.call.method ≠ .togglePause) :
    (Frozen s s' ∧ s'.paused = some true)
    ∧ ∀ d ∈ tr, d.before.storage.paused = some true := by
  have hinv := h.invariant_of_calls
    (P := fun t => Frozen s t ∧ t.paused = some true)
    (Q := fun k => k.method ≠ .togglePause)
    (fun hm ⟨hf, hp⟩ he => ⟨hf.trans (he.frozen hp), (he.paused_eq hm).trans hp⟩)
    ⟨.refl s, hp⟩ htr
  exact ⟨hinv.1, fun d hd => (hinv.2 d hd).1.2⟩

/-- **Pausing freezes the ledger.** After a call `e` that left the flag set,
and as long as no later one has toggled it: none of the calls made since
changed a balance, the supply or a quota record, nor an allowance except by
the admin's `approve` or `removeIssuer`; the ledger is the one that `e` left;
what is left of any call in flight writes nothing; and so does every further
step that leaves the pause in place, be it an accepted call, a refused one, or
one that aborts and takes back what was done in it. -/
theorem pause_freezes {c : Network} (h : Reachable c) {pre mid : List Receipt}
    {e : Receipt} (htr : c.cur.trace = pre ++ e :: mid)
    (hset : e.after.storage.paused = some true)
    (hmid : ∀ d ∈ mid, d.call.method ≠ .togglePause) :
    (∀ d ∈ mid, Frozen d.before.storage d.after.storage
      ∧ OnlyAdminSets d.call d.before.storage d.after.storage)
    ∧ Frozen e.after.storage c.cur.state.storage
    ∧ (∀ f ∈ c.stack, ∀ g, f.resume = some g → ∀ w, (g c.cur.state).first = some w →
      w.storage = c.cur.state.storage)
    ∧ ∀ c', Step body c c' → ∀ mid', c'.cur.trace = pre ++ e :: mid' →
      (∀ d ∈ mid', d.call.method ≠ .togglePause) →
      Frozen c.cur.state.storage c'.cur.state.storage := by
  -- the history since `e`, in any configuration that still has it
  have hsince : ∀ {c' : Network} {mid' : List Receipt}, Reachable c' →
      c'.cur.trace = pre ++ e :: mid' →
      History e.after.storage mid' c'.cur.state.storage := by
    intro c' mid' h' htr'
    obtain ⟨s₀, -, hist, -⟩ := h'.history
    rw [htr'] at hist
    exact hist.split_call.2.2
  have hist := hsince h htr
  obtain ⟨⟨hfrozen, -⟩, hpaused⟩ := hist.frozen hset hmid
  refine ⟨?_, hfrozen, ?_, ?_⟩
  · intro d hd
    obtain ⟨evs, he, -⟩ := hist.effect d hd
    exact ⟨he.frozen (hpaused d hd), he.onlyAdminSets (hpaused d hd)⟩
  · intro f hf g hg w hw
    exact h.rest hf hg hw
  · intro c' hstep mid' htr' hmid'
    have hist' := hsince (h.steps (.single hstep)) htr'
    exact hfrozen.symm.trans (hist'.frozen hset hmid').1.1

namespace Sample

/-- The admin has paused the funded coin and approved itself anew. -/
def halted : Network :=
  funded.run (calls [⟨admin, .togglePause⟩, ⟨admin, .approve admin 7⟩])

theorem halted_reachable : Reachable halted := funded_reachable.run _

end Sample

theorem pause_freezes_halted :
    Frozen (Sample.after ⟨Sample.admin, .togglePause⟩).storage
      Sample.halted.cur.state.storage := by
  let e : Receipt := ⟨100, ⟨Sample.admin, .togglePause⟩, Sample.funded.cur.state,
    Sample.after ⟨Sample.admin, .togglePause⟩⟩
  let d : Receipt := ⟨100, ⟨Sample.admin, .approve Sample.admin 7⟩,
    Sample.after ⟨Sample.admin, .togglePause⟩, Sample.halted.cur.state⟩
  exact (@pause_freezes Sample.halted Sample.halted_reachable
    Sample.funded.cur.trace [d] e rfl rfl (by simp [d])).2.1

end StableCoin
