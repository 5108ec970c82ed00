import Mathlib.Data.List.Induction
import StableCoin.Script

/-!
# Linear histories

Re-entrancy made linear. When a component's suspended calls never touch,
after they got control back, the part `view` of the state its calls work
on (`Quiet`), the trace of a nested run is an ordinary sequential history:
each accepted call starts in the view the one before it left (`Linked`).

`linked_of_steps` proves this for every run of the machine, so that
properties of the view and its history are proved by a plain induction on
`Linked`, with no nesting left. `linearize` draws the conclusion a client
cares about: the accepted calls of any call tree, replayed one after the
other at top level with requests that nobody uses, all succeed and lead to
the same view.
-/

namespace Reentrancy

variable {ε ρ η κ σ τ : Type}

/-! ## Sequential histories -/

section

variable (body : η → κ → Program ε ρ σ Unit) (view : σ → τ)

/-- Every continuation the component leaves behind finishes, whatever
state it gets, and leaves the view alone. -/
def Quiet : Prop :=
  ∀ g, Resumption body g → ∀ s, ∃ s', g s = .done () s' ∧ view s' = view s

/-- `tr` is a sequential history of accepted calls from the view `t₀`:
each starts in the view its predecessor left, none earlier than it. -/
inductive Linked [LE η] (t₀ : τ) : List (Entry η κ σ) → τ → Prop
  | nil : Linked t₀ [] t₀
  | snoc {tr t e} (h : Linked t₀ tr t) (ht : view e.before = t)
      (he : (body e.now e.call e.before).first = some e.after)
      (hn : ∀ d ∈ tr, d.now ≤ e.now) : Linked t₀ (tr ++ [e]) (view e.after)

/-- The calls `ks` at time `now`, one after the other, with requests that
nobody uses; nothing as soon as one of them is aborted. -/
def flatRun (now : η) (ks : List κ) (s : σ) : Option σ :=
  ks.foldlM (fun s k => (body now k s).finish) s

/-- The component works on its view only: where the view agrees, an
accepted call is accepted again and leaves the same view. `I` is what may
be assumed of the views that occur, and is kept. -/
structure Replayable (I : τ → Prop) : Prop where
  keep {now k s s'} : I (view s) → (body now k s).first = some s' → I (view s')
  replay {now k s s' v} : I (view s) → (body now k s).first = some s' →
    view v = view s → ∃ v', (body now k v).first = some v' ∧ view v' = view s'

end

variable {body : η → κ → Program ε ρ σ Unit} {view : σ → τ}

namespace Linked

section

variable [LE η]

/-- A history determines the view it ends in. -/
theorem unique {t₀ t t' : τ} {tr : List (Entry η κ σ)}
    (h : Linked body view t₀ tr t) (h' : Linked body view t₀ tr t') : t = t' := by
  generalize htr : tr = tr' at h'
  cases h with
  | nil =>
      cases h' with
      | nil => rfl
      | snoc => simp at htr
  | snoc =>
      cases h' with
      | nil => simp at htr
      | snoc =>
          obtain ⟨-, he⟩ := List.append_inj' htr rfl
          rw [List.singleton_inj.mp he]

theorem of_snoc {t₀ t : τ} {tr : List (Entry η κ σ)} {e : Entry η κ σ}
    (h : Linked body view t₀ (tr ++ [e]) t) :
    Linked body view t₀ tr (view e.before) ∧ t = view e.after
      ∧ (body e.now e.call e.before).first = some e.after
      ∧ ∀ d ∈ tr, d.now ≤ e.now := by
  generalize htr : tr ++ [e] = tr' at h
  cases h with
  | nil => simp at htr
  | snoc h ht he hn =>
      obtain ⟨rfl, heq⟩ := List.append_inj' htr rfl
      obtain rfl := List.singleton_inj.mp heq
      exact ⟨ht ▸ h, rfl, he, hn⟩

/-- A history splits at every point of its trace. -/
theorem split {t₀ t : τ} {tr seg : List (Entry η κ σ)}
    (h : Linked body view t₀ (tr ++ seg) t) :
    ∃ tm, Linked body view t₀ tr tm ∧ Linked body view tm seg t := by
  induction seg using List.reverseRecOn generalizing t with
  | nil => exact ⟨t, by simpa using h, .nil⟩
  | append_singleton seg e ih =>
      rw [← List.append_assoc] at h
      obtain ⟨hpre, rfl, he, hn⟩ := h.of_snoc
      obtain ⟨tm, htr, hseg⟩ := ih hpre
      exact ⟨tm, htr, .snoc hseg rfl he fun d hd => hn d (List.mem_append_right _ hd)⟩

/-- What every accepted call keeps holds all along a history. -/
theorem keep {I : τ → Prop} {t₀ t : τ} {tr : List (Entry η κ σ)}
    (hI : Replayable body view I) (h : Linked body view t₀ tr t) (h₀ : I t₀) :
    I t := by
  induction h with
  | nil => exact h₀
  | snoc _ ht he _ ih => exact hI.keep (ht ▸ ih) he

end

end Linked

/-! ## From nested runs to histories -/

section

variable [Preorder η]

/-- The history property, in the form the invariant rule takes. -/
def Chronicle (body : η → κ → Program ε ρ σ Unit) (view : σ → τ) (t₀ : τ)
    (now : η) (w : Snapshot η κ σ) : Prop :=
  Linked body view t₀ w.trace (view w.state) ∧ ∀ e ∈ w.trace, e.now ≤ now

theorem chronicle_invariant (hq : Quiet body view) (t₀ : τ) :
    Invariant body (Chronicle body view t₀) where
  tick h := fun ⟨hl, hn⟩ => ⟨hl, fun e he => le_trans (hn e he) h⟩
  start := by
    rintro now k w s ⟨hl, hn⟩ h
    refine ⟨Linked.snoc (e := ⟨now, k, w.state, s⟩) hl rfl h hn, ?_⟩
    intro e he
    rcases List.mem_append.mp he with he | he
    · exact hn e he
    · rw [List.mem_singleton.mp he]
  resume := by
    rintro now g w s ⟨hl, hn⟩ hg h
    obtain ⟨s', hs', hv⟩ := hq g hg w.state
    rw [hs'] at h
    obtain rfl := Option.some.inj h
    exact ⟨by simpa [hv] using hl, hn⟩

/-- **Every nested run has a linear history.** -/
theorem linked_of_steps (hq : Quiet body view) {now : η} {s₀ : σ}
    {c : Config ε ρ η κ σ} (hs : Steps body ⟨now, ⟨s₀, []⟩, []⟩ c) :
    Linked body view (view s₀) c.cur.trace (view c.cur.state)
      ∧ ∀ e ∈ c.cur.trace, e.now ≤ c.now :=
  (chronicle_invariant hq (view s₀)).reachable
    (P := Chronicle body view (view s₀)) ⟨.nil, by simp⟩ hs

/-- The part of a run's trace that a further run adds is a history from the
view at which the further run starts. -/
theorem linked_segment (hq : Quiet body view) {now : η} {s₀ : σ}
    {c c' : Config ε ρ η κ σ} (hs : Steps body ⟨now, ⟨s₀, []⟩, []⟩ c)
    (hs' : Steps body c c') {seg : List (Entry η κ σ)}
    (hseg : c'.cur.trace = c.cur.trace ++ seg) :
    Linked body view (view c.cur.state) seg (view c'.cur.state) := by
  have h' := (linked_of_steps hq (hs.trans hs')).1
  rw [hseg] at h'
  obtain ⟨tm, htr, hl⟩ := h'.split
  rwa [htr.unique (linked_of_steps hq hs).1] at hl

end

/-! ## Replaying a history -/

/-- A call of a quiet component that is accepted finishes in the view in
which it first loses control. -/
theorem finish_of_first (hq : Quiet body view) {now : η} {k : κ} {s s' : σ}
    (h : (body now k s).first = some s') :
    ∃ v, (body now k s).finish = some v ∧ view v = view s' := by
  rcases Outcome.first_eq_some h with ⟨a, ho⟩ | ⟨r, g, ho⟩
  · exact ⟨s', by rw [ho]; rfl, rfl⟩
  · obtain ⟨v, hv, hview⟩ := hq g (.entry ho) s'
    exact ⟨v, by rw [ho, Outcome.finish_call, hv]; rfl, hview⟩

theorem Linked.flatRun [LE η] {I : τ → Prop} (hq : Quiet body view)
    (hI : Replayable body view I) {now : η} {t t' : τ}
    {seg : List (Entry η κ σ)} (h : Linked body view t seg t') (hIt : I t)
    (hn : ∀ e ∈ seg, e.now = now) {v : σ} (hv : view v = t) :
    ∃ v', flatRun body now (seg.map Entry.call) v = some v' ∧ view v' = t' := by
  induction h with
  | nil => exact ⟨v, rfl, hv⟩
  | @snoc tr t e h ht he _ ih =>
      obtain ⟨v₁, hrun, hv₁⟩ := ih fun d hd => hn d (List.mem_append_left _ hd)
      rw [hn e (List.mem_append_right _ (List.mem_cons_self ..))] at he
      have hIe : I (view e.before) := ht ▸ h.keep hI hIt
      obtain ⟨v₂, hfirst, hv₂⟩ := hI.replay hIe he (hv₁.trans ht.symm)
      obtain ⟨v₃, hfin, hv₃⟩ := finish_of_first hq hfirst
      refine ⟨v₃, ?_, hv₃.trans hv₂⟩
      simp only [Reentrancy.flatRun] at hrun ⊢
      simp [List.foldlM_append, hrun, hfin]

/-- **Re-entrancy is harmless for a quiet component.** In every reachable
configuration, whatever a call tree does there, running its accepted calls
flat succeeds and ends in the same view. -/
theorem linearize [Preorder η] {I : τ → Prop} (hq : Quiet body view)
    (hI : Replayable body view I) {now : η} {s₀ : σ} {c : Config ε ρ η κ σ}
    (h₀ : I (view s₀)) (hs : Steps body ⟨now, ⟨s₀, []⟩, []⟩ c)
    {sc : Script κ} {w : Snapshot η κ σ}
    (hx : exec body c.now sc c.cur = some w) :
    ∃ v, flatRun body c.now (accepted body c.now sc c.cur) c.cur.state = some v
      ∧ view v = view w.state := by
  obtain ⟨seg, htr, hks, hn⟩ := exec_trace sc hx
  have hstep := exec_steps sc hx c.stack
  have hseg := linked_segment hq hs hstep htr
  have hIc := (linked_of_steps hq hs).1.keep hI h₀
  rw [← hks]
  exact hseg.flatRun hq hI hIc hn rfl

end Reentrancy
