import Mathlib.Logic.Relation
import Mathlib.Order.Basic
import StableCoin.Outcome

/-!
# Re-entrant calls with rollback

The machine a component runs on when other code may call it at any time,
also while one of its own calls is suspended in an external request.

A configuration holds the current snapshot and a stack of frames in
flight. A frame is either a suspended call of the component, with the
continuation that waits for its request to be answered, or a frame of
foreign code. Whoever is on top of the stack may call the component,
open a further foreign frame, return, or abort; a frame that aborts gives
back the snapshot it was entered with, and with it everything done in
the frames nested in it. Time moves only between transactions, when no
frame is in flight.

The snapshot carries, next to the component's state, the *trace* of the
calls accepted so far. It is rolled back with the state, so it lists
exactly the calls that have not been undone, each one before the calls
made while it was suspended.

`Invariant.reachable` is the induction every invariant over whole runs
goes through: a property that the start of a call and the resumption of
a suspended one preserve holds in every reachable configuration and in
every snapshot a frame could still roll back to.
-/

namespace Reentrancy

variable {ε ρ η κ σ : Type}

/-! ## Configurations -/

/-- One accepted call: when it was made, the state it started from, and
the state in which it first lost control. -/
structure Entry (η κ σ : Type) where
  now : η
  call : κ
  before : σ
  after : σ

/-- What an aborting frame gives back. -/
structure Snapshot (η κ σ : Type) where
  state : σ
  trace : List (Entry η κ σ)

namespace Snapshot

/-- The call `k` was accepted and left the state `s`. -/
def push (w : Snapshot η κ σ) (now : η) (k : κ) (s : σ) : Snapshot η κ σ :=
  ⟨s, w.trace ++ [⟨now, k, w.state, s⟩]⟩

/-- A suspended call went on and left the state `s`. -/
def settle (w : Snapshot η κ σ) (s : σ) : Snapshot η κ σ :=
  { w with state := s }

@[simp] theorem push_state (w : Snapshot η κ σ) (now : η) (k : κ) (s : σ) :
    (w.push now k s).state = s := rfl

@[simp] theorem push_trace (w : Snapshot η κ σ) (now : η) (k : κ) (s : σ) :
    (w.push now k s).trace = w.trace ++ [⟨now, k, w.state, s⟩] := rfl

@[simp] theorem settle_state (w : Snapshot η κ σ) (s : σ) :
    (w.settle s).state = s := rfl

@[simp] theorem settle_trace (w : Snapshot η κ σ) (s : σ) :
    (w.settle s).trace = w.trace := rfl

end Snapshot

/-- A frame in flight: the snapshot it was entered with and, for a call of
the component, the rest of it. -/
structure Frame (ε ρ η κ σ : Type) where
  saved : Snapshot η κ σ
  resume : Option (Program ε ρ σ Unit)

structure Config (ε ρ η κ σ : Type) where
  now : η
  cur : Snapshot η κ σ
  stack : List (Frame ε ρ η κ σ)

/-! ## Steps -/

section

variable (body : η → κ → Program ε ρ σ Unit)

/-- The continuations that a call of the component may leave behind. -/
inductive Resumption : Program ε ρ σ Unit → Prop
  | entry {now k s r s' g} (h : body now k s = .call r s' g) : Resumption g
  | again {g s r s' g'} (hg : Resumption g) (h : g s = .call r s' g') :
      Resumption g'

variable [Preorder η]

/-- One step of the machine. The component is `body`: what it does when
it is called with `k` at time `now`. -/
inductive Step : Config ε ρ η κ σ → Config ε ρ η κ σ → Prop
  | tick {now now' w} (h : now ≤ now') :
      Step ⟨now, w, []⟩ ⟨now', w, []⟩
  | run {now w fs k s} (h : body now k w.state = .done () s) :
      Step ⟨now, w, fs⟩ ⟨now, w.push now k s, fs⟩
  | suspend {now w fs k r s g} (h : body now k w.state = .call r s g) :
      Step ⟨now, w, fs⟩ ⟨now, w.push now k s, ⟨w, some g⟩ :: fs⟩
  | reject {now w fs k e} (h : body now k w.state = .abort e) :
      Step ⟨now, w, fs⟩ ⟨now, w, fs⟩
  | enter {now w fs} :
      Step ⟨now, w, fs⟩ ⟨now, w, ⟨w, none⟩ :: fs⟩
  | leave {now w saved fs} :
      Step ⟨now, w, ⟨saved, none⟩ :: fs⟩ ⟨now, w, fs⟩
  | resume {now w saved g fs s} (h : g w.state = .done () s) :
      Step ⟨now, w, ⟨saved, some g⟩ :: fs⟩ ⟨now, w.settle s, fs⟩
  | again {now w saved g fs r s g'} (h : g w.state = .call r s g') :
      Step ⟨now, w, ⟨saved, some g⟩ :: fs⟩ ⟨now, w.settle s, ⟨saved, some g'⟩ :: fs⟩
  | fail {now w saved g fs e} (h : g w.state = .abort e) :
      Step ⟨now, w, ⟨saved, some g⟩ :: fs⟩ ⟨now, saved, fs⟩
  | revert {now w f fs} :
      Step ⟨now, w, f :: fs⟩ ⟨now, f.saved, fs⟩

/-- A finite run. -/
abbrev Steps : Config ε ρ η κ σ → Config ε ρ η κ σ → Prop :=
  Relation.ReflTransGen (Step body)

/-- A property of the time and the snapshot that every stretch of the
component's own code preserves: from the start of a call until it first
loses control, and from the answer to a request until it loses control
again. -/
structure Invariant (P : η → Snapshot η κ σ → Prop) : Prop where
  tick {now now' w} : now ≤ now' → P now w → P now' w
  start {now k w s} : P now w → (body now k w.state).first = some s →
    P now (w.push now k s)
  resume {now g w s} : P now w → Resumption body g →
    (g w.state).first = some s → P now (w.settle s)

end

/-! ## The induction over runs -/

section

variable {body : η → κ → Program ε ρ σ Unit}
  {P : η → Snapshot η κ σ → Prop}

/-- What the induction carries: `P` now, `P` of everything a frame could
roll back to, and continuations that come from the component. -/
structure Sound (body : η → κ → Program ε ρ σ Unit)
    (P : η → Snapshot η κ σ → Prop) (c : Config ε ρ η κ σ) : Prop where
  cur : P c.now c.cur
  saved : ∀ f ∈ c.stack, P c.now f.saved
  resume : ∀ f ∈ c.stack, ∀ g, f.resume = some g → Resumption body g

theorem Sound.pop {now : η} {w w' : Snapshot η κ σ} {f : Frame ε ρ η κ σ}
    {fs : List (Frame ε ρ η κ σ)} (h : Sound body P ⟨now, w, f :: fs⟩)
    (hw : P now w') : Sound body P ⟨now, w', fs⟩ :=
  ⟨hw, fun f' hf' => h.saved f' (List.mem_cons_of_mem _ hf'),
   fun f' hf' => h.resume f' (List.mem_cons_of_mem _ hf')⟩

theorem Sound.cons {now : η} {w w' : Snapshot η κ σ} {f : Frame ε ρ η κ σ}
    {fs : List (Frame ε ρ η κ σ)} (h : Sound body P ⟨now, w, fs⟩)
    (hw : P now w') (hf : P now f.saved)
    (hg : ∀ g, f.resume = some g → Resumption body g) :
    Sound body P ⟨now, w', f :: fs⟩ := by
  refine ⟨hw, ?_, ?_⟩
  · intro f' hf'
    rcases List.mem_cons.mp hf' with rfl | hin
    · exact hf
    · exact h.saved f' hin
  · intro f' hf'
    rcases List.mem_cons.mp hf' with rfl | hin
    · exact hg
    · exact h.resume f' hin

theorem Sound.top_resume {now : η} {w saved : Snapshot η κ σ}
    {g : Program ε ρ σ Unit} {fs : List (Frame ε ρ η κ σ)}
    (h : Sound body P ⟨now, w, ⟨saved, some g⟩ :: fs⟩) : Resumption body g :=
  h.resume _ (List.mem_cons_self ..) g rfl

variable [Preorder η]

/-- One step preserves soundness. -/
theorem Invariant.step (hP : Invariant body P) {c c' : Config ε ρ η κ σ}
    (hc : Sound body P c) (hs : Step body c c') : Sound body P c' := by
  cases hs with
  | tick h =>
      exact ⟨hP.tick h hc.cur, fun _ hf => (List.not_mem_nil hf).elim,
        fun _ hf => (List.not_mem_nil hf).elim⟩
  | run h =>
      exact ⟨hP.start hc.cur (Outcome.first_of_done h), hc.saved, hc.resume⟩
  | suspend h =>
      refine hc.cons (hP.start hc.cur (Outcome.first_of_call h)) hc.cur ?_
      intro g' hg'
      obtain rfl := Option.some.inj hg'
      exact .entry h
  | reject h => exact hc
  | enter => exact hc.cons hc.cur hc.cur fun g hg => by cases hg
  | leave => exact hc.pop hc.cur
  | resume h =>
      exact hc.pop (hP.resume hc.cur hc.top_resume (Outcome.first_of_done h))
  | again h =>
      have hsaved := hc.saved _ (List.mem_cons_self ..)
      have hsettled := hP.resume hc.cur hc.top_resume (Outcome.first_of_call h)
      refine (hc.pop hc.cur).cons hsettled hsaved ?_
      intro g' hg'
      obtain rfl := Option.some.inj hg'
      exact .again hc.top_resume h
  | fail h => exact hc.pop (hc.saved _ (List.mem_cons_self ..))
  | revert => exact hc.pop (hc.saved _ (List.mem_cons_self ..))

/-- **The invariant rule.** An invariant that holds at the start of a run
holds in every configuration of it, whatever the nesting. -/
theorem Invariant.sound (hP : Invariant body P) {c c' : Config ε ρ η κ σ}
    (hc : Sound body P c) (hs : Steps body c c') : Sound body P c' := by
  induction hs with
  | refl => exact hc
  | tail _ hstep ih => exact hP.step ih hstep

theorem Invariant.reachable (hP : Invariant body P) {now : η}
    {w : Snapshot η κ σ} {c : Config ε ρ η κ σ} (hw : P now w)
    (hs : Steps body ⟨now, w, []⟩ c) : P c.now c.cur :=
  (hP.sound ⟨hw, fun _ hf => (List.not_mem_nil hf).elim,
    fun _ hf => (List.not_mem_nil hf).elim⟩ hs).cur

/-- What waits in a run is a continuation of the component. -/
theorem Steps.resumption {now : η} {w : Snapshot η κ σ} {c : Config ε ρ η κ σ}
    (hs : Steps body ⟨now, w, []⟩ c) :
    ∀ f ∈ c.stack, ∀ g, f.resume = some g → Resumption body g := by
  have htriv : Invariant body fun (_ : η) (_ : Snapshot η κ σ) => True :=
    ⟨fun _ _ => trivial, fun _ _ => trivial, fun _ _ _ => trivial⟩
  exact (htriv.sound ⟨trivial, fun _ _ => trivial, fun _ hf => (List.not_mem_nil hf).elim⟩
    hs).resume

end

end Reentrancy
