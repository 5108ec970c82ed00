import StableCoin.Machine

/-!
# Call trees

The machine's runs as data. A `Script` is what foreign code does with the
component while it is in control: call it, open another contract's frame,
return, or abort. A call carries the script that answers its requests, so
a script is a finite tree of calls, and since every tree is allowed it
does not matter that real code decides as it goes: whatever it did in one
run is some tree.

`exec` runs a script to its end, `accepted` lists the calls of the tree
that were not undone, each before the calls made while it was suspended.
`exec_steps` shows that a script's run is a run of the machine, and
`exec_trace` that the machine's trace grows by exactly the accepted calls.
-/

namespace Reentrancy

variable {ε ρ η κ σ : Type}

/-- What foreign code does with the component. `call k answer next` calls
it, answers each of its requests with `answer`, and - whether or not the
call was aborted - goes on with `next`; `frame` does the same with code of
a further contract. -/
inductive Script (κ : Type) where
  | ret
  | revert
  | call (k : κ) (answer next : Script κ)
  | frame (inner next : Script κ)

/-! ## Running a script -/

namespace Outcome

/-- Run to the end, with `answer` deciding what happens during each
request. `put` records the state reached in the snapshot. -/
def answered (answer : Snapshot η κ σ → Option (Snapshot η κ σ)) :
    Outcome ε ρ σ Unit → (σ → Snapshot η κ σ) → Option (Snapshot η κ σ)
  | .done _ s, put => some (put s)
  | .abort _, _ => none
  | .call _ s k, put =>
      (answer (put s)).bind fun w => (k w.state).answered answer w.settle

/-- What `inner` collects during the requests of the same run. -/
def collected (answer : Snapshot η κ σ → Option (Snapshot η κ σ))
    (inner : Snapshot η κ σ → List κ) :
    Outcome ε ρ σ Unit → (σ → Snapshot η κ σ) → List κ
  | .done _ _, _ => []
  | .abort _, _ => []
  | .call _ s k, put =>
      inner (put s) ++ match answer (put s) with
        | none => []
        | some w => (k w.state).collected answer inner w.settle

end Outcome

section

variable (body : η → κ → Program ε ρ σ Unit) (now : η)

/-- One call of the component; nothing when it is aborted. -/
def invoke (answer : Snapshot η κ σ → Option (Snapshot η κ σ)) (k : κ)
    (w : Snapshot η κ σ) : Option (Snapshot η κ σ) :=
  (body now k w.state).answered answer (w.push now k)

/-- Run a script; nothing when it aborts. A call or frame that aborts
leaves no effect, and its caller goes on. -/
def exec : Script κ → Snapshot η κ σ → Option (Snapshot η κ σ)
  | .ret, w => some w
  | .revert, _ => none
  | .call k answer next, w =>
      exec next ((invoke body now (exec answer) k w).getD w)
  | .frame inner next, w => exec next ((exec inner w).getD w)

/-- The calls of the script that are not undone, in pre-order. -/
def accepted : Script κ → Snapshot η κ σ → List κ
  | .ret, _ => []
  | .revert, _ => []
  | .call k answer next, w =>
      match invoke body now (exec body now answer) k w with
      | none => accepted next w
      | some w' =>
          k :: (body now k w.state).collected (exec body now answer)
            (accepted answer) (w.push now k) ++ accepted next w'
  | .frame inner next, w =>
      match exec body now inner w with
      | none => accepted next w
      | some w' => accepted inner w ++ accepted next w'

end

/-! ## A script's run is a run of the machine -/

section

variable {body : η → κ → Program ε ρ σ Unit} {now : η}
  {answer : Snapshot η κ σ → Option (Snapshot η κ σ)}

section

variable [Preorder η]

/-- A suspended call whose requests are answered by runs of the machine
goes on to its end by a run of the machine. -/
theorem answered_steps
    (hans : ∀ {w w'}, answer w = some w' → ∀ fs : List (Frame ε ρ η κ σ),
      Steps body ⟨now, w, fs⟩ ⟨now, w', fs⟩)
    {fs : List (Frame ε ρ η κ σ)} {saved w' : Snapshot η κ σ}
    (o : Outcome ε ρ σ Unit) {g : Program ε ρ σ Unit} {w : Snapshot η κ σ}
    (hg : g w.state = o) (h : o.answered answer w.settle = some w') :
    Steps body ⟨now, w, ⟨saved, some g⟩ :: fs⟩ ⟨now, w', fs⟩ := by
  induction o generalizing g w with
  | done a s =>
      obtain rfl := Option.some.inj h
      exact .single (.resume hg)
  | abort e => cases h
  | call r s k ih =>
      simp only [Outcome.answered, Option.bind_eq_some_iff] at h
      obtain ⟨w₁, hw₁, h⟩ := h
      exact .head (.again hg) ((hans hw₁ _).trans (ih _ rfl h))

theorem invoke_steps
    (hans : ∀ {w w'}, answer w = some w' → ∀ fs : List (Frame ε ρ η κ σ),
      Steps body ⟨now, w, fs⟩ ⟨now, w', fs⟩)
    {k : κ} {w w' : Snapshot η κ σ} (h : invoke body now answer k w = some w')
    (fs : List (Frame ε ρ η κ σ)) :
    Steps body ⟨now, w, fs⟩ ⟨now, w', fs⟩ := by
  unfold invoke at h
  cases ho : body now k w.state with
  | done a s =>
      rw [ho] at h
      obtain rfl := Option.some.inj h
      exact .single (.run ho)
  | abort e => rw [ho] at h; cases h
  | call r s g =>
      simp only [ho, Outcome.answered, Option.bind_eq_some_iff] at h
      obtain ⟨w₁, hw₁, h⟩ := h
      exact .head (.suspend ho)
        ((hans hw₁ _).trans (answered_steps hans _ rfl h))

theorem exec_steps (sc : Script κ) {w w' : Snapshot η κ σ}
    (h : exec body now sc w = some w') (fs : List (Frame ε ρ η κ σ)) :
    Steps body ⟨now, w, fs⟩ ⟨now, w', fs⟩ := by
  induction sc generalizing w w' fs with
  | ret =>
      obtain rfl := Option.some.inj h
      exact .refl
  | revert => cases h
  | call k a next iha ihn =>
      simp only [exec] at h
      cases hi : invoke body now (exec body now a) k w with
      | none =>
          rw [hi] at h
          exact ihn h fs
      | some w₁ =>
          rw [hi] at h
          exact (invoke_steps (fun h fs => iha h fs) hi fs).trans (ihn h fs)
  | frame inner next ihi ihn =>
      simp only [exec] at h
      cases hi : exec body now inner w with
      | none =>
          rw [hi] at h
          exact ihn h fs
      | some w₁ =>
          rw [hi] at h
          exact ((Relation.ReflTransGen.single .enter).trans (ihi hi _)).trans
            (.head .leave (ihn h fs))

end

/-! ## The trace lists the accepted calls -/

/-- The trace of `w'` extends the trace of `w` by calls `ks` made at `now`. -/
def Extends (now : η) (w w' : Snapshot η κ σ) (ks : List κ) : Prop :=
  ∃ seg, w'.trace = w.trace ++ seg ∧ seg.map Entry.call = ks
    ∧ ∀ e ∈ seg, e.now = now

theorem Extends.refl (w : Snapshot η κ σ) : Extends now w w [] :=
  ⟨[], by simp, rfl, by simp⟩

theorem Extends.trans {w₁ w₂ w₃ : Snapshot η κ σ} {ks ks' : List κ}
    (h : Extends now w₁ w₂ ks) (h' : Extends now w₂ w₃ ks') :
    Extends now w₁ w₃ (ks ++ ks') := by
  obtain ⟨seg, ht, hk, hn⟩ := h
  obtain ⟨seg', ht', hk', hn'⟩ := h'
  refine ⟨seg ++ seg', by rw [ht', ht, List.append_assoc], by simp [hk, hk'], ?_⟩
  intro e he
  rcases List.mem_append.mp he with he | he
  · exact hn e he
  · exact hn' e he

theorem Extends.push (w : Snapshot η κ σ) (k : κ) (s : σ) :
    Extends now w (w.push now k s) [k] :=
  ⟨[⟨now, k, w.state, s⟩], rfl, rfl, by simp⟩

/-- The requests of a suspended call extend the trace by what they
collect; going on afterwards leaves it alone. -/
theorem answered_extends {inner : Snapshot η κ σ → List κ}
    (hans : ∀ {w w'}, answer w = some w' → Extends now w w' (inner w))
    (o : Outcome ε ρ σ Unit) {put : σ → Snapshot η κ σ} {w w' : Snapshot η κ σ}
    {ks : List κ} (hput : ∀ s, Extends now w (put s) ks)
    (h : o.answered answer put = some w') :
    Extends now w w' (ks ++ o.collected answer inner put) := by
  induction o generalizing put w ks with
  | done a s =>
      obtain rfl := Option.some.inj h
      simpa [Outcome.collected] using hput s
  | abort e => cases h
  | call r s k ih =>
      simp only [Outcome.answered, Option.bind_eq_some_iff] at h
      obtain ⟨w₁, hw₁, h⟩ := h
      have hself : ∀ s', Extends now w₁ (w₁.settle s') [] :=
        fun _ => Extends.refl w₁
      have hrest := ih w₁.state hself h
      simp only [Outcome.collected, hw₁]
      rw [← List.append_assoc]
      exact ((hput s).trans (hans hw₁)).trans (by simpa using hrest)

theorem exec_trace (sc : Script κ) {w w' : Snapshot η κ σ}
    (h : exec body now sc w = some w') :
    Extends now w w' (accepted body now sc w) := by
  induction sc generalizing w w' with
  | ret =>
      obtain rfl := Option.some.inj h
      exact .refl w
  | revert => cases h
  | call k a next iha ihn =>
      simp only [exec] at h
      simp only [accepted]
      cases hi : invoke body now (exec body now a) k w with
      | none =>
          rw [hi] at h
          exact ihn h
      | some w₁ =>
          rw [hi] at h
          have hcall := answered_extends (fun h => iha h) _
            (fun s => Extends.push w k s) hi
          simpa using hcall.trans (ihn h)
  | frame inner next ihi ihn =>
      simp only [exec] at h
      simp only [accepted]
      cases hi : exec body now inner w with
      | none =>
          rw [hi] at h
          exact ihn h
      | some w₁ =>
          rw [hi] at h
          exact (ihi hi).trans (ihn h)

end

end Reentrancy
