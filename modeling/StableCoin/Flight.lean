import StableCoin.Machine

/-!
# What is in flight

The invariants of `Machine` speak of the snapshot alone. Some laws of a
re-entrant component hold only together with what its suspended calls
still owe: here an invariant also sees the frames in flight.

A frame that aborts gives back its own snapshot *and* the frames below
it, so the invariant is carried for every frame with the frames that were
in flight when it was entered (`Intact`). `StepsIn` are the runs in which
every accepted call meets a condition on the moment it is made at.
-/

namespace Reentrancy

variable {ε ρ η κ σ : Type}

section

variable [Preorder η] (body : η → κ → Program ε ρ σ Unit)
  (G : η → Snapshot η κ σ → List (Frame ε ρ η κ σ) → κ → Prop)

/-- A step in which an accepted call meets `G`. -/
def StepIn (c c' : Config ε ρ η κ σ) : Prop :=
  Step body c c' ∧ ∀ k s, c'.cur = c.cur.push c.now k s → G c.now c.cur c.stack k

/-- A finite run in which every accepted call meets `G`. -/
abbrev StepsIn : Config ε ρ η κ σ → Config ε ρ η κ σ → Prop :=
  Relation.ReflTransGen (StepIn body G)

/-- A property of the time, the snapshot and the frames in flight that every
step but an abort preserves, in runs whose calls meet `G`. -/
structure FlightInvariant
    (P : η → Snapshot η κ σ → List (Frame ε ρ η κ σ) → Prop) : Prop where
  tick {now now' w} : now ≤ now' → P now w [] → P now' w []
  run {now w fs k s} : P now w fs → G now w fs k →
    body now k w.state = .done () s → P now (w.push now k s) fs
  suspend {now w fs k r s g} : P now w fs → G now w fs k →
    body now k w.state = .call r s g → P now (w.push now k s) (⟨w, some g⟩ :: fs)
  enter {now w fs} : P now w fs → P now w (⟨w, none⟩ :: fs)
  leave {now w saved fs} : P now w (⟨saved, none⟩ :: fs) → P now w fs
  resume {now w saved g fs s} : P now w (⟨saved, some g⟩ :: fs) →
    Resumption body g → g w.state = .done () s → P now (w.settle s) fs
  again {now w saved g fs r s g'} : P now w (⟨saved, some g⟩ :: fs) →
    Resumption body g → g w.state = .call r s g' →
    P now (w.settle s) (⟨saved, some g'⟩ :: fs)

end

section

variable {body : η → κ → Program ε ρ σ Unit}
  {G : η → Snapshot η κ σ → List (Frame ε ρ η κ σ) → κ → Prop}
  {P : η → Snapshot η κ σ → List (Frame ε ρ η κ σ) → Prop}

/-- `P` now, and of everything a frame could roll back to with the frames
below it. -/
def Intact (body : η → κ → Program ε ρ σ Unit)
    (P : η → Snapshot η κ σ → List (Frame ε ρ η κ σ) → Prop) (now : η) :
    Snapshot η κ σ → List (Frame ε ρ η κ σ) → Prop
  | w, [] => P now w []
  | w, f :: fs => P now w (f :: fs) ∧ (∀ g, f.resume = some g → Resumption body g)
      ∧ Intact body P now f.saved fs

theorem Intact.now {now : η} {w : Snapshot η κ σ} {fs : List (Frame ε ρ η κ σ)}
    (h : Intact body P now w fs) : P now w fs := by
  cases fs with
  | nil => exact h
  | cons f fs => exact h.1

theorem Intact.replace {now : η} {w w' : Snapshot η κ σ}
    {fs : List (Frame ε ρ η κ σ)} (h : Intact body P now w fs) (hw : P now w' fs) :
    Intact body P now w' fs := by
  cases fs with
  | nil => exact hw
  | cons f fs => exact ⟨hw, h.2⟩

/-- With the top frame gone, what is left is intact around any snapshot
that has the property. -/
theorem Intact.pop {now : η} {w w' : Snapshot η κ σ} {f : Frame ε ρ η κ σ}
    {fs : List (Frame ε ρ η κ σ)} (h : Intact body P now w (f :: fs))
    (hw : P now w' fs) : Intact body P now w' fs :=
  h.2.2.replace hw

theorem Intact.top_resume {now : η} {w saved : Snapshot η κ σ}
    {g : Program ε ρ σ Unit} {fs : List (Frame ε ρ η κ σ)}
    (h : Intact body P now w (⟨saved, some g⟩ :: fs)) : Resumption body g :=
  h.2.1 g rfl

variable [Preorder η]

theorem FlightInvariant.step (hP : FlightInvariant body G P)
    {c c' : Config ε ρ η κ σ} (hc : Intact body P c.now c.cur c.stack)
    (hs : StepIn body G c c') : Intact body P c'.now c'.cur c'.stack := by
  obtain ⟨hs, hG⟩ := hs
  cases hs with
  | tick h => exact hP.tick h hc
  | run h => exact hc.replace (hP.run hc.now (hG _ _ rfl) h)
  | suspend h =>
      refine ⟨hP.suspend hc.now (hG _ _ rfl) h, ?_, hc⟩
      intro g' hg'
      obtain rfl := Option.some.inj hg'
      exact .entry h
  | reject h => exact hc
  | enter => exact ⟨hP.enter hc.now, nofun, hc⟩
  | leave => exact hc.pop (hP.leave hc.now)
  | resume h => exact hc.pop (hP.resume hc.now hc.top_resume h)
  | again h =>
      refine ⟨hP.again hc.now hc.top_resume h, ?_, hc.2.2⟩
      intro g' hg'
      obtain rfl := Option.some.inj hg'
      exact .again hc.top_resume h
  | fail h => exact hc.2.2
  | revert => exact hc.2.2

/-- **The invariant rule with frames.** -/
theorem FlightInvariant.reachable (hP : FlightInvariant body G P) {now : η}
    {w : Snapshot η κ σ} {c : Config ε ρ η κ σ} (hw : P now w [])
    (hs : StepsIn body G ⟨now, w, []⟩ c) : P c.now c.cur c.stack := by
  have hc : Intact body P c.now c.cur c.stack := by
    induction hs with
    | refl => exact hw
    | tail _ hstep ih => exact hP.step ih hstep
  exact hc.now

/-- Every run is a run under no condition. -/
theorem Steps.stepsIn {c c' : Config ε ρ η κ σ} (hs : Steps body c c') :
    StepsIn body (fun _ _ _ _ => True) c c' :=
  Relation.ReflTransGen.mono (fun _ _ h => ⟨h, fun _ _ _ => trivial⟩) _ _ hs

theorem StepsIn.steps {c c' : Config ε ρ η κ σ} (hs : StepsIn body G c c') :
    Steps body c c' :=
  Relation.ReflTransGen.mono (fun _ _ h => h.1) _ _ hs

end

/-! ## Times -/

section

variable [Preorder η] {body : η → κ → Program ε ρ σ Unit}

/-- What happens in a frame only adds to the trace it was entered with. -/
theorem saved_prefix : FlightInvariant body (fun _ _ _ _ => True)
    fun _ w fs => ∀ f ∈ fs, f.saved.trace <+: w.trace where
  tick _ h := h
  run h _ _ f hf := (h f hf).trans (List.prefix_append _ _)
  suspend h _ _ := List.forall_mem_cons.mpr
    ⟨List.prefix_append _ _, fun f hf => (h f hf).trans (List.prefix_append _ _)⟩
  enter h := List.forall_mem_cons.mpr ⟨List.prefix_rfl, h⟩
  leave h := (List.forall_mem_cons.mp h).2
  resume h _ _ := (List.forall_mem_cons.mp h).2
  again h _ _ := List.forall_mem_cons.mpr (List.forall_mem_cons.mp h)

/-- Time does not run backwards. -/
theorem Steps.now_le {c c' : Config ε ρ η κ σ} (hs : Steps body c c') : c.now ≤ c'.now := by
  induction hs with
  | refl => exact le_refl _
  | tail _ hstep ih =>
      cases hstep with
      | tick h => exact ih.trans h
      | _ => exact ih

/-- What comes after the first `n` calls is no earlier than `t`. -/
def NotBefore (t : η) (n : Nat) (now : η) (w : Snapshot η κ σ) : Prop :=
  t ≤ now ∧ ∀ e ∈ w.trace.drop n, t ≤ e.now

theorem notBefore_invariant (t : η) (n : Nat) : Invariant body (NotBefore t n) where
  tick hle h := ⟨h.1.trans hle, h.2⟩
  start := by
    rintro now k w s ⟨ht, htr⟩ -
    refine ⟨ht, fun e he => ?_⟩
    rw [Snapshot.push_trace, List.drop_append] at he
    rcases List.mem_append.mp he with he | he
    · exact htr e he
    · rw [List.mem_singleton.mp (List.mem_of_mem_drop he)]
      exact ht
  resume h _ _ := h

/-- A further run adds only calls made since it began. -/
theorem segment_notBefore {now : η} {w : Snapshot η κ σ} {c c' : Config ε ρ η κ σ}
    (h : Steps body ⟨now, w, []⟩ c) (hs : Steps body c c') {seg : List (Entry η κ σ)}
    (hseg : c'.cur.trace = c.cur.trace ++ seg) : ∀ e ∈ seg, c.now ≤ e.now := by
  have hsaved := saved_prefix.reachable (P := fun _ w fs => ∀ f ∈ fs, f.saved.trace <+: w.trace)
    (fun _ hf => (List.not_mem_nil hf).elim) h.stepsIn
  have hstart : Sound body (NotBefore c.now c.cur.trace.length) c := by
    refine ⟨⟨le_refl _, by simp⟩, fun f hf => ⟨le_refl _, ?_⟩, h.resumption⟩
    rw [List.drop_eq_nil_of_le (hsaved f hf).length_le]
    exact fun _ he => (List.not_mem_nil he).elim
  have hend := ((notBefore_invariant _ _).sound hstart hs).cur.2
  rwa [hseg, List.drop_left] at hend

end

end Reentrancy
