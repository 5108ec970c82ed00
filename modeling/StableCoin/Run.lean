import Mathlib.Data.Int.ConditionallyCompleteOrder
import StableCoin.Callback

/-!
# Runs of the contract

A run starts with a deployment and goes on with any calls by anybody, to
any depth of re-entrancy. `Reachable.history` turns it into the sequence
of its accepted calls with their effects on the storage: `History` is what
every later result is an induction on, one `Effect` a step.
-/

namespace StableCoin

open Reentrancy

/-- The contract and the calls in flight around it. -/
abbrev Network := Config Abort Fallback Int Call World

/-- An accepted call as the trace of a run records it. -/
abbrev Receipt := Entry Int Call World

/-! ## Deployment -/

/-- The storage of a contract that was deployed and not used yet. -/
structure Fresh (s : Storage) : Prop extends Deployed s where
  issuers : s.issuers = []
  supply : s.totalSupply = some 0
  running : s.paused = some false
  limit : s.freeDailyTxLimit = some 50
  cap : ∃ n, s.nIssuers = some n ∧ 0 < n
  balances : s.balances = fun _ => none
  allowances : s.allowances = fun _ => none
  whitelist : s.whitelist = fun _ _ => none

theorem Fresh.balanceOf_eq {s : Storage} (h : Fresh s) (a : Address) :
    balanceOf s a = 0 := by
  simp [balanceOf, h.balances, DictDB.getOrDefault]

theorem Fresh.issuerAllowance_eq {s : Storage} (h : Fresh s) (a : Address) :
    issuerAllowance s a = 0 := by
  simp [issuerAllowance, h.allowances, DictDB.getOrDefault]

/-- `w` is what a successful deployment leaves. -/
def Deployment (w : World) : Prop :=
  ∃ name symbol decimals admin nIssuers,
    constructor name symbol decimals admin nIssuers ⟨Storage.empty, [], 0⟩
      = .done () w

theorem Deployment.fresh {w : World} (h : Deployment w) :
    Fresh w.storage ∧ w.events = [] := by
  obtain ⟨name, symbol, decimals, admin, nIssuers, h⟩ := h
  have hfirst : (constructor name symbol decimals admin nIssuers
      ⟨Storage.empty, [], 0⟩).first = some w := Outcome.first_of_done h
  simp [constructor, Storage.empty] at hfirst
  obtain ⟨-, -, -, hn, -, rfl⟩ := hfirst
  exact ⟨⟨⟨rfl, rfl, rfl, rfl, rfl⟩, rfl, rfl, rfl, rfl, ⟨_, rfl, hn⟩, rfl, rfl, rfl⟩,
    rfl⟩

/-! ## Histories -/

/-- `tr` is a sequential history of accepted calls that leads from the
storage `s₀` to the storage `s`. -/
inductive History (s₀ : Storage) : List Receipt → Storage → Prop
  | nil : History s₀ [] s₀
  | snoc {tr s e s' evs fee} (h : History s₀ tr s) (hs : e.before.storage = s)
      (he : Effect e.now s e.call.caller e.call.method s' evs fee)
      (ha : e.after = ⟨s', e.before.events ++ evs, fee⟩)
      (hn : ∀ d ∈ tr, d.now ≤ e.now) : History s₀ (tr ++ [e]) s'

theorem history_of_linked {s₀ s : Storage} {tr : List Receipt} (hd : Deployed s₀)
    (h : Linked body World.storage s₀ tr s) : History s₀ tr s ∧ Deployed s := by
  induction h with
  | nil => exact ⟨.nil, hd⟩
  | @snoc tr s e h hs he hn ih =>
      obtain ⟨ih, hds⟩ := ih
      obtain ⟨s', evs, fee, heff, ha⟩ := Effect.of_first (hs ▸ hds) he
      rw [hs] at heff
      rw [ha]
      exact ⟨.snoc ih hs heff ha hn, hds.effect heff⟩

namespace History

variable {s₀ s : Storage} {tr : List Receipt}

/-- A history goes on with any call that has an effect. -/
theorem next {e : Receipt} {evs : List Event} (h : History s₀ tr e.before.storage)
    (he : Effect e.now e.before.storage e.call.caller e.call.method e.after.storage evs
      e.after.feeSharing)
    (hev : e.after.events = e.before.events ++ evs) (hn : ∀ d ∈ tr, d.now ≤ e.now) :
    History s₀ (tr ++ [e]) e.after.storage :=
  .snoc h rfl he (by rw [← hev]) hn

/-- Induction along a history, with each call read off its receipt. -/
@[elab_as_elim]
theorem receipts
    {motive : (tr : List Receipt) → (s : Storage) → History s₀ tr s → Prop}
    (nil : motive [] s₀ .nil)
    (next : ∀ {tr : List Receipt} {e : Receipt} {evs : List Event}
      (h : History s₀ tr e.before.storage)
      (he : Effect e.now e.before.storage e.call.caller e.call.method e.after.storage
        evs e.after.feeSharing)
      (hev : e.after.events = e.before.events ++ evs) (hn : ∀ d ∈ tr, d.now ≤ e.now),
      motive tr e.before.storage h →
        motive (tr ++ [e]) e.after.storage (h.next he hev hn))
    {tr : List Receipt} {s : Storage} (h : History s₀ tr s) : motive tr s h := by
  induction h with
  | nil => exact nil
  | @snoc tr s e s' evs fee h hs he ha hn ih =>
      subst hs
      obtain ⟨t, k, w, w'⟩ := e
      simp only at ha
      subst ha
      exact next h he rfl hn ih

/-- **The induction over histories.** What every effect of a call in `Q`
keeps holds all along a history of such calls: before and after each of
them, and at its end. -/
theorem invariant_of_calls {P : Storage → Prop} {Q : Call → Prop}
    (hP : ∀ {now s c m s' evs fee}, Q ⟨c, m⟩ → P s → Effect now s c m s' evs fee → P s')
    (h : History s₀ tr s) (h₀ : P s₀) (hQ : ∀ e ∈ tr, Q e.call) :
    P s ∧ ∀ e ∈ tr, P e.before.storage ∧ P e.after.storage := by
  induction h using History.receipts with
  | nil => exact ⟨h₀, fun e he => (List.not_mem_nil he).elim⟩
  | @next tr e evs h he hev hn ih =>
      obtain ⟨hs, htr⟩ := ih fun d hd => hQ d (List.mem_append_left _ hd)
      have hnew := hP (hQ e (by simp)) hs he
      refine ⟨hnew, ?_⟩
      intro d hd
      rcases List.mem_append.mp hd with hd | hd
      · exact htr d hd
      · obtain rfl := List.mem_singleton.mp hd
        exact ⟨hs, hnew⟩

theorem invariant {P : Storage → Prop}
    (hP : ∀ {now s c m s' evs fee}, P s → Effect now s c m s' evs fee → P s')
    (h : History s₀ tr s) (h₀ : P s₀) :
    P s ∧ ∀ e ∈ tr, P e.before.storage ∧ P e.after.storage :=
  h.invariant_of_calls (Q := fun _ => True) (fun _ => hP) h₀ fun _ _ => trivial

/-- **The induction over histories, for laws that know the height.** What
waiting keeps, and every call in `Q`, holds after each call of a history of
such calls, and from then on. -/
theorem timed_invariant {P : Int → Storage → Prop} {Q : Receipt → Prop}
    (wait : ∀ {now now' s}, now ≤ now' → P now s → P now' s)
    (step : ∀ {e : Receipt} {evs}, P e.now e.before.storage → Q e →
      Effect e.now e.before.storage e.call.caller e.call.method e.after.storage evs
        e.after.feeSharing → P e.now e.after.storage)
    (h : History s₀ tr s) (h₀ : ∀ now, P now s₀) (hQ : ∀ e ∈ tr, Q e) :
    (∀ e ∈ tr, P e.now e.after.storage)
    ∧ ∀ now, (∀ e ∈ tr, e.now ≤ now) → P now s := by
  induction h using History.receipts with
  | nil => exact ⟨fun e he => (List.not_mem_nil he).elim, fun now _ => h₀ now⟩
  | @next tr e evs h he hev hn ih =>
      obtain ⟨htr, hs⟩ := ih fun d hd => hQ d (List.mem_append_left _ hd)
      have hnew := step (hs e.now hn) (hQ e (by simp)) he
      refine ⟨?_, fun now hle => wait (hle e (by simp)) hnew⟩
      intro d hd
      rcases List.mem_append.mp hd with hd | hd
      · exact htr d hd
      · rwa [List.mem_singleton.mp hd]

theorem of_snoc {e : Receipt} (h : History s₀ (tr ++ [e]) s) :
    History s₀ tr e.before.storage ∧ s = e.after.storage
      ∧ (∃ evs, Effect e.now e.before.storage e.call.caller e.call.method
          e.after.storage evs e.after.feeSharing
        ∧ e.after.events = e.before.events ++ evs)
      ∧ ∀ d ∈ tr, d.now ≤ e.now := by
  generalize htr : tr ++ [e] = l at h
  cases h with
  | nil => simp at htr
  | @snoc l _ d s' evs fee h hs he ha hn =>
      obtain ⟨rfl, hde⟩ := List.append_inj' htr rfl
      obtain rfl := List.singleton_inj.mp hde
      rw [ha, hs]
      exact ⟨h, rfl, ⟨evs, he, rfl⟩, hn⟩

theorem split {seg : List Receipt} (h : History s₀ (tr ++ seg) s) :
    ∃ m, History s₀ tr m ∧ History m seg s := by
  generalize hl : tr ++ seg = l at h
  induction h generalizing seg with
  | nil =>
      obtain ⟨rfl, rfl⟩ := List.append_eq_nil_iff.mp hl
      exact ⟨s₀, .nil, .nil⟩
  | @snoc l t e s' evs fee h hs he ha hn ih =>
      rcases List.eq_nil_or_concat seg with rfl | ⟨seg, d, rfl⟩
      · rw [List.append_nil] at hl
        rw [hl]
        exact ⟨_, .snoc h hs he ha hn, .nil⟩
      · rw [List.concat_eq_append, ← List.append_assoc] at hl
        obtain ⟨rfl, hde⟩ := List.append_inj' hl rfl
        obtain rfl := List.singleton_inj.mp hde
        obtain ⟨m, hpre, hseg⟩ := ih rfl
        rw [List.concat_eq_append]
        exact ⟨m, hpre, .snoc hseg hs he ha fun b hb => hn b (by simp [hb])⟩

/-- A history splits at each of its calls. -/
theorem split_call {e : Receipt} {post : List Receipt}
    (h : History s₀ (tr ++ e :: post) s) :
    History s₀ tr e.before.storage ∧ History s₀ (tr ++ [e]) e.after.storage
      ∧ History e.after.storage post s := by
  rw [List.append_cons] at h
  obtain ⟨m, hpre, hpost⟩ := h.split
  obtain ⟨hbefore, rfl, -⟩ := hpre.of_snoc
  exact ⟨hbefore, hpre, hpost⟩

/-- What did not hold at first and holds at the end began to hold with some
call. -/
theorem exists_onset {p : Storage → Prop} (h : History s₀ tr s) (h₀ : ¬ p s₀) (hs : p s) :
    ∃ pre e post, tr = pre ++ e :: post ∧ ¬ p e.before.storage ∧ p e.after.storage := by
  induction h using History.receipts with
  | nil => exact absurd hs h₀
  | @next tr e evs h _ _ _ ih =>
      by_cases hb : p e.before.storage
      · obtain ⟨pre, d, post, rfl, hd⟩ := ih hb
        exact ⟨pre, d, post ++ [e], by simp, hd⟩
      · exact ⟨tr, e, [], rfl, hb, hs⟩

/-- Every call of a history has an effect on the storage it found. -/
theorem effect (h : History s₀ tr s) : ∀ e ∈ tr, ∃ evs,
    Effect e.now e.before.storage e.call.caller e.call.method e.after.storage evs
        e.after.feeSharing
      ∧ e.after.events = e.before.events ++ evs := by
  intro e he
  obtain ⟨pre, post, rfl⟩ := List.append_of_mem he
  exact h.split_call.2.1.of_snoc.2.2.1

end History

/-! ## Runs -/

/-- A configuration that some run reaches. -/
def Reachable (c : Network) : Prop :=
  ∃ now w, Deployment w ∧ Steps body ⟨now, ⟨w, []⟩, []⟩ c

/-- `c'` comes after `c` at the same height, and its trace goes on with the
calls `ks`. -/
structure Grows (c : Network) (ks : List Call) (c' : Network) : Prop where
  steps : Steps body c c'
  now : c'.now = c.now
  trace : Extends c.now c.cur c'.cur ks

theorem Grows.refl (c : Network) : Grows c [] c := ⟨.refl, rfl, .refl _⟩

theorem Grows.trans {c₁ c₂ c₃ : Network} {ks ks' : List Call}
    (h : Grows c₁ ks c₂) (h' : Grows c₂ ks' c₃) : Grows c₁ (ks ++ ks') c₃ :=
  ⟨h.steps.trans h'.steps, h'.now.trans h.now, h.trace.trans (h.now ▸ h'.trace)⟩

namespace Reachable

variable {c c' : Network}

theorem steps (h : Reachable c) (hs : Steps body c c') : Reachable c' := by
  obtain ⟨now, w, hw, h⟩ := h
  exact ⟨now, w, hw, h.trans hs⟩

/-- Every reachable configuration has a history from a fresh storage. -/
theorem history (h : Reachable c) : ∃ s₀, Fresh s₀
    ∧ History s₀ c.cur.trace c.cur.state.storage
    ∧ ∀ e ∈ c.cur.trace, e.now ≤ c.now := by
  obtain ⟨now, w, hw, hs⟩ := h
  obtain ⟨hl, hn⟩ := linked_of_steps body_quiet hs
  have hf := hw.fresh.1
  exact ⟨w.storage, hf, (history_of_linked hf.toDeployed hl).1, hn⟩

theorem deployed (h : Reachable c) : Deployed c.cur.state.storage := by
  obtain ⟨now, w, hw, hs⟩ := h
  have hl := (linked_of_steps body_quiet hs).1
  exact (history_of_linked hw.fresh.1.toDeployed hl).2

/-- What a further run adds to the trace is a history of its own. -/
theorem segment (h : Reachable c) (hs : Steps body c c') {seg : List Receipt}
    (hseg : c'.cur.trace = c.cur.trace ++ seg) :
    History c.cur.state.storage seg c'.cur.state.storage := by
  have hd := h.deployed
  obtain ⟨now, w, hw, h⟩ := h
  exact (history_of_linked hd (linked_segment body_quiet h hs hseg)).1

/-- The storage invariants of a run: true of a fresh storage and kept by
every effect, hence true in every reachable configuration. -/
theorem invariant (h : Reachable c) {P : Storage → Prop}
    (h₀ : ∀ {s}, Fresh s → P s)
    (hP : ∀ {now s c m s' evs fee}, P s → Effect now s c m s' evs fee → P s') :
    P c.cur.state.storage := by
  obtain ⟨s₀, hf, hist, -⟩ := h.history
  exact (hist.invariant hP (h₀ hf)).1

/-- An accepted call in a reachable configuration has an effect. -/
theorem effect (h : Reachable c) {k : Call} {w : World}
    (hk : (body c.now k c.cur.state).first = some w) : ∃ evs,
    Effect c.now c.cur.state.storage k.caller k.method w.storage evs w.feeSharing
      ∧ w.events = c.cur.state.events ++ evs := by
  obtain ⟨s, evs, fee, he, rfl⟩ := Effect.of_first h.deployed hk
  exact ⟨evs, he, rfl⟩

/-- A call in flight comes to its end, and leaves the storage as it finds
it. -/
theorem resume_done (h : Reachable c) {f : Frame Abort Fallback Int Call World}
    (hf : f ∈ c.stack) {g : Exec Unit} (hg : f.resume = some g) (w : World) :
    ∃ w', g w = .done () w' ∧ w'.storage = w.storage := by
  obtain ⟨now, w₀, -, hs⟩ := h
  exact body_quiet g (hs.resumption f hf g hg) w

theorem rest (h : Reachable c) {f : Frame Abort Fallback Int Call World}
    (hf : f ∈ c.stack) {g : Exec Unit} (hg : f.resume = some g) {w w' : World}
    (hw : (g w).first = some w') : w'.storage = w.storage := by
  obtain ⟨w'', hg', hv⟩ := h.resume_done hf hg w
  rw [hg'] at hw
  obtain rfl := Option.some.inj hw
  exact hv

/-- Whatever has an effect can be called, and the call brought to its end. -/
theorem accept (h : Reachable c) {k : Call} {s : Storage} {evs : List Event}
    {fee : Int}
    (he : Effect c.now c.cur.state.storage k.caller k.method s evs fee) :
    ∃ c', Grows c [k] c' ∧ c'.cur.state.storage = s := by
  obtain ⟨now, w, fs⟩ := c
  rcases Outcome.first_eq_some he.first with ⟨_, ho⟩ | ⟨r, g, ho⟩
  · exact ⟨⟨now, w.push now k _, fs⟩, ⟨.single (.run ho), rfl, .push ..⟩, rfl⟩
  · obtain ⟨v, hg, hv⟩ := body_quiet g (.entry ho) ⟨s, w.state.events ++ evs, fee⟩
    exact ⟨⟨now, (w.push now k _).settle v, fs⟩,
      ⟨.head (.suspend ho) (.single (.resume hg)), rfl, .push ..⟩, hv⟩

end Reachable

/-! ## Scripts in a run -/

/-- The configuration after foreign code has run the script `sc` in `c`; if
the script aborts, nothing has happened. -/
def Network.run (c : Network) (sc : Script Call) : Network :=
  { c with cur := (exec body c.now sc c.cur).getD c.cur }

/-- The calls `ks` one after the other, whose external calls nobody uses. -/
def calls (ks : List Call) : Script Call :=
  ks.foldr (fun k next => .call k .ret next) .ret

/-- The configuration `n` blocks later. -/
def Network.wait (c : Network) (n : Nat) : Network := { c with now := c.now + n }

theorem Network.run_steps (c : Network) (sc : Script Call) :
    Steps body c (c.run sc) := by
  cases hx : exec body c.now sc c.cur with
  | none =>
      have hsame : c.run sc = c := by simp [Network.run, hx]
      rw [hsame]
  | some w => simpa [Network.run, hx] using exec_steps sc hx c.stack

theorem Reachable.run {c : Network} (h : Reachable c) (sc : Script Call) :
    Reachable (c.run sc) := h.steps (c.run_steps sc)

theorem Reachable.wait {c : Network} (h : Reachable c) (hs : c.stack = [])
    (n : Nat) : Reachable (c.wait n) := by
  obtain ⟨now, w, fs⟩ := c
  obtain rfl : fs = [] := hs
  have hle : now ≤ now + n := by omega
  exact h.steps (.single (.tick hle))

/-- **Re-entrancy is harmless.** Whatever calls the callbacks of an accepted
call make, to any depth, the storage afterwards is the one that the accepted
calls of the tree leave when they are made one after the other at top level
with callbacks that do nothing, and all of them are accepted there too. -/
theorem flatRun_of_invoke {c : Network} (h : Reachable c) {k : Call}
    {callback : Script Call} {w : Snapshot Int Call World}
    (hk : invoke body c.now (exec body c.now callback) k c.cur = some w) :
    ∃ v, flatRun body c.now (accepted body c.now (.call k callback .ret) c.cur)
        c.cur.state = some v
      ∧ v.storage = w.state.storage := by
  obtain ⟨now, w₀, hw, hs⟩ := h
  have hx : exec body c.now (.call k callback .ret) c.cur = some w := by
    simp [exec, hk]
  exact linearize body_quiet body_replayable hw.fresh.1.toDeployed hs hx

/-! ## A sample run -/

namespace Sample

def admin : Address := ⟨false, 1⟩
def holder : Address := ⟨false, 2⟩
def shop : Address := ⟨true, 3⟩
def payee : Address := ⟨false, 4⟩

/-- A coin deployed at height 100. -/
def start : Network where
  now := 100
  cur := ⟨((constructor "Coin" "C" 6 admin 0 ⟨.empty, [], 0⟩).first).getD
    ⟨.empty, [], 0⟩, []⟩
  stack := []

/-- The admin is its own issuer and mints 1000 for the holder. -/
def funded : Network :=
  start.run (calls [⟨admin, .addIssuer admin⟩, ⟨admin, .approve admin 5000⟩,
    ⟨admin, .mintTo holder 1000⟩])

/-- The world after the call `k` to the funded coin. -/
def after (k : Call) : World :=
  ((body 100 k funded.cur.state).first).getD funded.cur.state

theorem start_reachable : Reachable start :=
  ⟨100, start.cur.state, ⟨"Coin", "C", 6, admin, 0, rfl⟩, .refl⟩

theorem funded_reachable : Reachable funded := start_reachable.run _

/-- The holder has paid twice. -/
def paid : Network :=
  funded.run (calls [⟨holder, .transfer payee 10 none⟩, ⟨holder, .transfer payee 20 none⟩])

theorem paid_reachable : Reachable paid := funded_reachable.run _

/-- The admin has set the limit to zero, and the holder's term has run out. -/
def closed : Network :=
  (funded.run (calls [⟨admin, .changeFreeDailyTxLimit 0⟩])).wait 43120

theorem closed_reachable : Reachable closed := (funded_reachable.run _).wait rfl _

/-- The limit is one, and the holder's term ends at this very height. -/
def ending : Network :=
  (funded.run (calls [⟨admin, .changeFreeDailyTxLimit 1⟩])).wait 43120

theorem ending_reachable : Reachable ending := (funded_reachable.run _).wait rfl _

/-- While it is being paid 10, the shop pays 4 back and burns 1, after a
payment to the zero address that is refused. -/
def payBack : Script Call :=
  calls [⟨shop, .transfer holder 4 none⟩, ⟨shop, .transfer EOA_ZERO 1 none⟩,
    ⟨shop, .burn 1⟩]

end Sample

theorem flatRun_of_invoke_payBack : ∃ v,
    flatRun body 100 [⟨Sample.holder, .transfer Sample.shop 10 none⟩,
      ⟨Sample.shop, .transfer Sample.holder 4 none⟩, ⟨Sample.shop, .burn 1⟩]
      Sample.funded.cur.state = some v
    ∧ balanceOf v.storage Sample.holder = 994 := by
  have hpaid : (invoke body 100 (exec body 100 Sample.payBack)
      ⟨Sample.holder, .transfer Sample.shop 10 none⟩ Sample.funded.cur).isSome := by
    decide
  have hk := (Option.some_get hpaid).symm
  obtain ⟨v, hflat, hv⟩ := flatRun_of_invoke Sample.funded_reachable hk
  refine ⟨v, hflat, ?_⟩
  rw [hv]
  rfl

end StableCoin
