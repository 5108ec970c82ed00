import Mathlib.Data.List.Induction

/-!
# Elections vote by vote

Voters speak one after the other, each for one side. A vote decides the
election when its side has won with it, or when nobody is left to speak;
the first decision stands, whatever is said later.
-/

namespace Election

variable {S V : Type*}

/-- Who may vote, and which votes make a side win. -/
structure Rules (S V : Type*) where
  seats : ℕ
  Wins : S → List V → Prop

inductive Outcome (S : Type*) where
  | running
  | won (s : S)
  | exhausted
deriving DecidableEq, Repr

section

variable [DecidableEq S]

/-- The votes for one side, in the order in which they were cast. -/
def on (s : S) (votes : List (S × V)) : List V :=
  (votes.filter (·.1 = s)).map Prod.snd

@[simp] theorem on_nil (s : S) : on s ([] : List (S × V)) = [] := rfl

theorem on_snoc (s : S) (votes : List (S × V)) (v : S × V) :
    on s (votes ++ [v]) = if s = v.1 then on s votes ++ [v.2] else on s votes := by
  by_cases h : s = v.1
  · simp [on, h]
  · simp [on, h, Ne.symm h]

variable (R : Rules S V) [∀ s votes, Decidable (R.Wins s votes)]

/-- The outcome when `votes` follow those in `seen`, which decided nothing. -/
def outcomeFrom (seen : List (S × V)) : List (S × V) → Outcome S
  | [] => .running
  | v :: votes =>
      if R.Wins v.1 (on v.1 (seen ++ [v])) then .won v.1
      else if (seen ++ [v]).length = R.seats then .exhausted
      else outcomeFrom (seen ++ [v]) votes

def outcome (votes : List (S × V)) : Outcome S := outcomeFrom R [] votes

/-! ## One more vote -/

theorem outcomeFrom_snoc (seen votes : List (S × V)) (v : S × V) :
    outcomeFrom R seen (votes ++ [v])
      = match outcomeFrom R seen votes with
        | .running => outcomeFrom R (seen ++ votes) [v]
        | o => o := by
  induction votes generalizing seen with
  | nil => simp [outcomeFrom]
  | cons u votes ih =>
      simp only [List.cons_append, outcomeFrom]
      by_cases hwins : R.Wins u.1 (on u.1 (seen ++ [u]))
      · simp [hwins]
      · by_cases hlast : (seen ++ [u]).length = R.seats
        · simp only [if_neg hwins, if_pos hlast]
        · simp only [if_neg hwins, if_neg hlast, ih, outcomeFrom, List.append_assoc,
            List.cons_append, List.nil_append]

variable {R} {votes : List (S × V)} {v : S × V}

/-- While nothing is decided, the next vote decides by what it adds. -/
theorem outcome_snoc_of_running (h : outcome R votes = .running) :
    outcome R (votes ++ [v])
      = if R.Wins v.1 (on v.1 (votes ++ [v])) then .won v.1
        else if (votes ++ [v]).length = R.seats then .exhausted
        else .running := by
  rw [outcome] at h
  rw [outcome, outcomeFrom_snoc, h]
  rfl

/-- **The first decision stands.** -/
theorem outcome_snoc_of_decided (h : outcome R votes ≠ .running) :
    outcome R (votes ++ [v]) = outcome R votes := by
  rw [outcome] at h
  rw [outcome, outcomeFrom_snoc]
  cases ho : outcomeFrom R [] votes with
  | running => exact absurd ho h
  | won s => rw [outcome, ho]
  | exhausted => rw [outcome, ho]

theorem outcome_append_of_decided {more : List (S × V)} (h : outcome R votes ≠ .running) :
    outcome R (votes ++ more) = outcome R votes := by
  induction more using List.reverseRecOn with
  | nil => rw [List.append_nil]
  | append_singleton more v ih =>
      rw [← List.append_assoc, outcome_snoc_of_decided (ih ▸ h), ih]

end

end Election
