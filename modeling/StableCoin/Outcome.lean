import Mathlib.Logic.Function.Basic

/-!
# Programs that hand control away

A *resumption*: a program over a state `σ` that may finish with a value,
abort with an error `ε`, or hand control to somebody else with a request
`ρ`. In the last case it leaves behind the state at that moment and a
continuation that runs from whatever state it is given when control
comes back - not from the state it left, which is exactly what makes
re-entrant calls hard to reason about.

`Program` is the state-passing monad over `Outcome`, so that code with an
external call in its middle is written in its own order in `do` notation.
What a program did before it first lost control (`Outcome.first`) and
what it does when every request is answered by doing nothing
(`Outcome.finish`) are the two views the rest of the library uses.
-/

namespace Reentrancy

/-! ## Outcomes -/

/-- How a run of a program ends: finished, aborted, or suspended in a
request with the rest of the program still to run. -/
inductive Outcome (ε ρ σ α : Type) where
  | done (a : α) (s : σ)
  | abort (e : ε)
  | call (r : ρ) (s : σ) (k : σ → Outcome ε ρ σ α)

section

variable {ε ρ σ α β : Type}

namespace Outcome

def bind : Outcome ε ρ σ α → (α → σ → Outcome ε ρ σ β) → Outcome ε ρ σ β
  | .done a s, f => f a s
  | .abort e, _ => .abort e
  | .call r s k, f => .call r s fun s' => (k s').bind f

/-- The state when the program first loses control, by finishing or by
its first request; nothing when it aborts before that. -/
def first : Outcome ε ρ σ α → Option σ
  | .done _ s => some s
  | .abort _ => none
  | .call _ s _ => some s

/-- The final state when nobody does anything during the requests. -/
def finish : Outcome ε ρ σ α → Option σ
  | .done _ s => some s
  | .abort _ => none
  | .call _ s k => (k s).finish

/-- The error of a program that aborts before it first loses control. -/
def error : Outcome ε ρ σ α → Option ε
  | .abort e => some e
  | _ => none

@[simp] theorem bind_done (a : α) (s : σ) (f : α → σ → Outcome ε ρ σ β) :
    (done a s : Outcome ε ρ σ α).bind f = f a s := rfl

@[simp] theorem bind_abort (e : ε) (f : α → σ → Outcome ε ρ σ β) :
    (abort e : Outcome ε ρ σ α).bind f = .abort e := rfl

@[simp] theorem bind_call (r : ρ) (s : σ) (k : σ → Outcome ε ρ σ α)
    (f : α → σ → Outcome ε ρ σ β) :
    (call r s k).bind f = .call r s fun s' => (k s').bind f := rfl

@[simp] theorem first_done (a : α) (s : σ) :
    (done a s : Outcome ε ρ σ α).first = some s := rfl

@[simp] theorem first_abort (e : ε) :
    (abort e : Outcome ε ρ σ α).first = none := rfl

@[simp] theorem first_call (r : ρ) (s : σ) (k : σ → Outcome ε ρ σ α) :
    (call r s k).first = some s := rfl

@[simp] theorem finish_done (a : α) (s : σ) :
    (done a s : Outcome ε ρ σ α).finish = some s := rfl

@[simp] theorem finish_abort (e : ε) :
    (abort e : Outcome ε ρ σ α).finish = none := rfl

@[simp] theorem finish_call (r : ρ) (s : σ) (k : σ → Outcome ε ρ σ α) :
    (call r s k).finish = (k s).finish := rfl

@[simp] theorem error_done (a : α) (s : σ) :
    (done a s : Outcome ε ρ σ α).error = none := rfl

@[simp] theorem error_abort (e : ε) :
    (abort e : Outcome ε ρ σ α).error = some e := rfl

@[simp] theorem error_call (r : ρ) (s : σ) (k : σ → Outcome ε ρ σ α) :
    (call r s k).error = none := rfl

/-- Exactly what does not abort has a first state. -/
theorem error_eq_none {o : Outcome ε ρ σ α} : o.error = none ↔ o.first.isSome := by
  cases o <;> simp

theorem error_eq_some {o : Outcome ε ρ σ α} {e : ε} : o.error = some e ↔ o = .abort e := by
  cases o <;> simp

theorem first_of_done {o : Outcome ε ρ σ α} {a : α} {s : σ} (h : o = .done a s) :
    o.first = some s := by
  rw [h, first_done]

theorem first_of_call {o : Outcome ε ρ σ α} {r : ρ} {s : σ}
    {k : σ → Outcome ε ρ σ α} (h : o = .call r s k) : o.first = some s := by
  rw [h, first_call]

theorem first_eq_none {o : Outcome ε ρ σ α} (h : o.first = none) :
    ∃ e, o = .abort e := by
  cases o with
  | abort e => exact ⟨e, rfl⟩
  | _ => cases h

/-- An outcome that has a first state either finished there or is
suspended there. -/
theorem first_eq_some {o : Outcome ε ρ σ α} {s : σ} (h : o.first = some s) :
    (∃ a, o = .done a s) ∨ ∃ r k, o = .call r s k := by
  cases o with
  | done a s' =>
      obtain rfl := Option.some.inj h
      exact Or.inl ⟨a, rfl⟩
  | abort e => cases h
  | call r s' k =>
      obtain rfl := Option.some.inj h
      exact Or.inr ⟨r, k, rfl⟩

end Outcome

end

/-! ## The monad -/

/-- A program over the state `σ` with result `α`. -/
def Program (ε ρ σ α : Type) : Type := σ → Outcome ε ρ σ α

namespace Program

variable {ε ρ σ α β : Type}

instance : Monad (Program ε ρ σ) where
  pure a := fun s => .done a s
  bind x f := fun s => (x s).bind f

/-- The current state. -/
def read : Program ε ρ σ σ := fun s => .done s s

def modify (f : σ → σ) : Program ε ρ σ Unit := fun s => .done () (f s)

def fail (e : ε) : Program ε ρ σ α := fun _ => .abort e

/-- Hand control away with the request `r`, and go on from whatever state
control comes back in. -/
def yield (r : ρ) : Program ε ρ σ Unit := fun s => .call r s fun s' => .done () s'

/-- A computation that does not touch the state. -/
def ofExcept (x : Except ε α) : Program ε ρ σ α := fun s =>
  match x with
  | .ok a => .done a s
  | .error e => .abort e

@[simp] theorem ofExcept_ok (a : α) (s : σ) :
    (ofExcept (.ok a) : Program ε ρ σ α) s = .done a s := rfl

@[simp] theorem ofExcept_error (e : ε) (s : σ) :
    (ofExcept (.error e) : Program ε ρ σ α) s = .abort e := rfl

/-- Where the rest of a program goes on after a computation. -/
theorem first_bind_ofExcept {x : Except ε α} {f : α → σ → Outcome ε ρ σ β} {s s' : σ} :
    (((ofExcept x : Program ε ρ σ α) s).bind f).first = some s'
      ↔ ∃ a, x = .ok a ∧ (f a s).first = some s' := by
  cases x <;> simp

@[simp] theorem pure_apply (a : α) (s : σ) :
    (pure a : Program ε ρ σ α) s = .done a s := rfl

@[simp] theorem bind_apply (x : Program ε ρ σ α) (f : α → Program ε ρ σ β)
    (s : σ) : (x >>= f) s = (x s).bind fun a s' => f a s' := rfl

@[simp] theorem read_apply (s : σ) :
    (read : Program ε ρ σ σ) s = .done s s := rfl

@[simp] theorem modify_apply (f : σ → σ) (s : σ) :
    (modify f : Program ε ρ σ Unit) s = .done () (f s) := rfl

@[simp] theorem fail_apply (e : ε) (s : σ) :
    (fail e : Program ε ρ σ α) s = .abort e := rfl

@[simp] theorem yield_apply (r : ρ) (s : σ) :
    (yield r : Program ε ρ σ Unit) s = .call r s fun s' => .done () s' := rfl

@[simp] theorem ite_apply (c : Prop) [Decidable c] (x y : Program ε ρ σ α) (s : σ) :
    (if c then x else y) s = if c then x s else y s := by
  split <;> rfl

/-! ## Programs that ask nothing -/

/-- The program never hands control away. A class, so that instance search
follows the program's structure. -/
class Silent (x : Program ε ρ σ α) : Prop where
  ne_call : ∀ s r s' k, x s ≠ .call r s' k

instance (a : α) : Silent (pure a : Program ε ρ σ α) :=
  ⟨fun _ _ _ _ h => by cases h⟩

instance (f : σ → σ) : Silent (modify f : Program ε ρ σ Unit) :=
  ⟨fun _ _ _ _ h => by cases h⟩

instance (e : ε) : Silent (fail e : Program ε ρ σ α) :=
  ⟨fun _ _ _ _ h => by cases h⟩

instance (x : Except ε α) : Silent (ofExcept x : Program ε ρ σ α) := by
  constructor
  intro s r s' k h
  cases x <;> cases h

/-- Only the rest of the program can ask. -/
theorem Silent.call_of_bind (x : Program ε ρ σ α) [Silent x]
    {f : α → Program ε ρ σ β} {s s' : σ} {r : ρ} {k : σ → Outcome ε ρ σ β}
    (h : (x >>= f) s = .call r s' k) : ∃ a s₁, f a s₁ = .call r s' k := by
  rw [bind_apply] at h
  cases ho : x s with
  | done a s₁ => exact ⟨a, s₁, by simpa [ho] using h⟩
  | abort e => simp [ho] at h
  | call r' s₁ k' => exact absurd ho (Silent.ne_call s r' s₁ k')

theorem Silent.bind (x : Program ε ρ σ α) [Silent x] {f : α → Program ε ρ σ β}
    (hf : ∀ a, Silent (f a)) : Silent (x >>= f) where
  ne_call s r s' k h := by
    obtain ⟨a, s₁, h⟩ := Silent.call_of_bind x h
    exact (hf a).ne_call s₁ r s' k h

instance (x : Program ε ρ σ α) (f : α → Program ε ρ σ β) [Silent x]
    [hf : ∀ a, Silent (f a)] : Silent (x >>= f) := .bind x hf

instance (c : Prop) [Decidable c] (x y : Program ε ρ σ α) [Silent x] [Silent y] :
    Silent (if c then x else y) := by
  split <;> infer_instance

end Program

/-! ## Checks -/

/-- The message of the first check that is not met. -/
def refusal (checks : List (Bool × String)) : Option String :=
  (checks.find? fun check => !check.1).map Prod.snd

@[simp] theorem refusal_nil : refusal [] = none := rfl

@[simp] theorem refusal_cons (met : Bool) (msg : String) (checks : List (Bool × String)) :
    refusal ((met, msg) :: checks) = if met then refusal checks else some msg := by
  cases met <;> rfl

theorem refusal_eq_none {checks : List (Bool × String)} :
    refusal checks = none ↔ ∀ check ∈ checks, check.1 = true := by
  simp [refusal]

end Reentrancy
