import Mathlib.Data.List.Basic

/-!
# Event sourcing

A state that is rebuilt from a log: `evolve` takes the state through one
event, and `allows` says which events the state admits. A log is lawful
when every event of it was admitted by the state that the events before
it lead to, so that whoever replays the log can check it on the way.
-/

namespace EventSourcing

variable {τ ε : Type} (evolve : τ → ε → τ) (allows : τ → ε → Prop)

/-- Every event is allowed by the state the events before it lead to. -/
def Lawful : τ → List ε → Prop
  | _, [] => True
  | t, e :: es => allows t e ∧ Lawful (evolve t e) es

@[simp] theorem lawful_nil (t : τ) : Lawful evolve allows t [] := trivial

@[simp] theorem lawful_cons (t : τ) (e : ε) (es : List ε) :
    Lawful evolve allows t (e :: es) ↔ allows t e ∧ Lawful evolve allows (evolve t e) es :=
  Iff.rfl

variable {evolve allows}

theorem lawful_append {t : τ} {l l' : List ε} :
    Lawful evolve allows t (l ++ l')
      ↔ Lawful evolve allows t l ∧ Lawful evolve allows (l.foldl evolve t) l' := by
  induction l generalizing t with
  | nil => simp
  | cons e l ih => simp [ih, and_assoc]

/-- What lawfulness says of one event of the log. -/
theorem Lawful.allows_at {t : τ} {l pre post : List ε} {e : ε}
    (h : Lawful evolve allows t l) (hl : l = pre ++ e :: post) :
    allows (pre.foldl evolve t) e := by
  subst hl
  obtain ⟨-, hrest⟩ := lawful_append.mp h
  exact hrest.1

/-- A log and the state it leads to, and the same after more of both. -/
structure Sourced (evolve : τ → ε → τ) (allows : τ → ε → Prop) (t₀ : τ)
    (l : List ε) (t : τ) : Prop where
  replay : l.foldl evolve t₀ = t
  lawful : Lawful evolve allows t₀ l

theorem Sourced.nil (t : τ) : Sourced evolve allows t [] t := ⟨rfl, trivial⟩

theorem Sourced.append {t₀ t t' : τ} {l l' : List ε}
    (h : Sourced evolve allows t₀ l t) (h' : Sourced evolve allows t l' t') :
    Sourced evolve allows t₀ (l ++ l') t' := by
  refine ⟨?_, lawful_append.mpr ⟨h.lawful, ?_⟩⟩
  · rw [List.foldl_append, h.replay, h'.replay]
  · rw [h.replay]
    exact h'.lawful

end EventSourcing
