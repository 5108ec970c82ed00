import Mathlib.Algebra.Order.Group.Int
import Mathlib.Data.List.Induction
import Mathlib.Tactic.Linarith

/-!
# Fixed-window limiters

A limiter that lets one client through a limited number of times per
*term*. A term starts with the client's first operation after the last
term has run out and lasts `len` units of time. The limit is given anew
with every operation, so it may change in the middle of a term.

`charge limit` asks for one use, `seed` opens a term without asking. The
rules are those of a limiter that trusts the first use of a new term:
rolling a term over grants the use without looking at the limit.

A `Log` is the history of one client. The results are what a limiter is
for: the starts of the terms are at least `len` apart (`Log.start_gap`),
a term's grants are bounded by a limit that was in force during it
(`Log.limit_of_granted`), any window of length `len` sees at most two
terms (`Log.window_bound`), the count of a term is that of its grants
(`Log.used_of_opens`), and what is left is the exact number of further
grants at that moment (`Log.granted_iff_left`).
-/

namespace FixedWindow

/-- A running term and the uses counted in it. -/
structure Term where
  start : Int
  used : Nat
deriving DecidableEq, Repr

inductive Op where
  | charge (limit : Int)
  | seed
deriving DecidableEq, Repr

/-- Use the term once more, if the limit allows. -/
def spend (limit : Int) (t : Term) : Term × Bool :=
  if (t.used : Int) < limit then (⟨t.start, t.used + 1⟩, true) else (t, false)

section

variable (len : Int)

/-- One operation at time `now`: the term afterwards, and whether the use
was granted. -/
def step (now : Int) : Op → Option Term → Term × Bool
  | .charge limit, none => spend limit ⟨now, 0⟩
  | .charge limit, some t =>
      if now < t.start + len then spend limit t else (⟨now, 1⟩, true)
  | .seed, none => (⟨now, 1⟩, false)
  | .seed, some t => (t, false)

/-- The uses that are left at time `now`. -/
def left (now limit : Int) (t : Term) : Int :=
  if now < t.start + len then limit - t.used else limit

/-- Everything one operation can do. -/
inductive Move (now : Int) : Op → Option Term → Term → Bool → Prop
  | opened {limit} (h : 0 < limit) : Move now (.charge limit) none ⟨now, 1⟩ true
  | shut {limit} (h : limit ≤ 0) : Move now (.charge limit) none ⟨now, 0⟩ false
  | spent {limit t} (ht : now < t.start + len) (h : (t.used : Int) < limit) :
      Move now (.charge limit) (some t) ⟨t.start, t.used + 1⟩ true
  | refused {limit t} (ht : now < t.start + len) (h : limit ≤ t.used) :
      Move now (.charge limit) (some t) t false
  | rolled {limit t} (ht : t.start + len ≤ now) :
      Move now (.charge limit) (some t) ⟨now, 1⟩ true
  | seeded : Move now .seed none ⟨now, 1⟩ false
  | kept {t} : Move now .seed (some t) t false

theorem step_move (now : Int) (op : Op) (p : Option Term) :
    Move len now op p (step len now op p).1 (step len now op p).2 := by
  cases op with
  | charge limit =>
      cases p with
      | none =>
          simp only [step, spend]
          split
          · exact .opened (by simp_all)
          · exact .shut (by simp_all)
      | some t =>
          simp only [step, spend]
          split
          · split
            · exact .spent ‹_› ‹_›
            · exact .refused ‹_› (by omega)
          · exact .rolled (by omega)
  | seed =>
      cases p with
      | none => exact .seeded
      | some t => exact .kept

/-- Opening a term grants nothing. -/
theorem step_seed (now : Int) (p : Option Term) : (step len now .seed p).2 = false := by
  cases p <;> rfl

/-! ## Histories -/

/-- One operation of the history: when, what, and the term it found. -/
structure Item where
  now : Int
  op : Op
  prior : Option Term
deriving DecidableEq, Repr

namespace Item

/-- The term the operation left. -/
def term (i : Item) : Term := (step len i.now i.op i.prior).1

def granted (i : Item) : Bool := (step len i.now i.op i.prior).2

/-- The operation found a term that had run out. -/
def RollsOver (i : Item) : Prop :=
  ∃ t, i.prior = some t ∧ t.start + len ≤ i.now

/-- The operation started a new term. -/
def Opens (i : Item) : Prop := ∀ t, i.prior = some t → t.start ≠ (i.term len).start

theorem move (i : Item) : Move len i.now i.op i.prior (i.term len) (i.granted len) :=
  step_move len i.now i.op i.prior

end Item

/-- The history of one client from the term `t₀`, in the order of time. -/
inductive Log (t₀ : Option Term) : List Item → Option Term → Prop
  | nil : Log t₀ [] t₀
  | snoc {l t i} (h : Log t₀ l t) (hp : i.prior = t) (hn : ∀ j ∈ l, j.now ≤ i.now) :
      Log t₀ (l ++ [i]) (some (i.term len))

/-- The uses granted in the term that started at `s`. -/
def grants (s : Int) (l : List Item) : Nat :=
  l.countP fun i => i.granted len && decide ((i.term len).start = s)

end

variable {len : Int}

theorem grants_snoc (s : Int) (l : List Item) (i : Item) :
    grants len s (l ++ [i])
      = grants len s l
        + if i.granted len = true ∧ (i.term len).start = s then 1 else 0 := by
  simp [grants, List.countP_append, List.countP_cons]

/-! ## Terms -/

namespace Move

variable {now : Int} {op : Op} {p : Option Term} {t t₁ : Term} {g : Bool}

/-- A granted use is counted, and within the limit unless the term was
rolled over. -/
theorem used_of_granted (h : Move len now op p t true) :
    ∃ limit, op = .charge limit ∧ ((t.used : Int) ≤ limit
      ∨ (∃ t', p = some t' ∧ t'.start + len ≤ now) ∧ t.used = 1) := by
  cases h with
  | opened h => exact ⟨_, rfl, Or.inl h⟩
  | spent _ h => exact ⟨_, rfl, Or.inl (by push_cast; omega)⟩
  | rolled hlt => exact ⟨_, rfl, Or.inr ⟨⟨_, rfl, hlt⟩, rfl⟩⟩

/-- Only a roll-over grants a use without a limit that allows it. -/
theorem limit_pos {limit : Int} (h : Move len now (.charge limit) p t true) :
    0 < limit ∨ ∃ t', p = some t' ∧ t'.start + len ≤ now := by
  cases h with
  | opened h => exact Or.inl h
  | spent _ h => exact Or.inl (by omega)
  | rolled hlt => exact Or.inr ⟨_, rfl, hlt⟩

/-- An operation leaves the start of the term it found, or starts a new
one now, after the old one has run out. -/
theorem start_cases (h : Move len now op p t g) :
    (∃ t', p = some t' ∧ t.start = t'.start)
      ∨ t.start = now ∧ ∀ t', p = some t' → t'.start + len ≤ now := by
  cases h with
  | opened _ => exact Or.inr ⟨rfl, nofun⟩
  | shut _ => exact Or.inr ⟨rfl, nofun⟩
  | spent _ _ => exact Or.inl ⟨_, rfl, rfl⟩
  | refused _ _ => exact Or.inl ⟨_, rfl, rfl⟩
  | rolled hlt =>
      refine Or.inr ⟨rfl, ?_⟩
      intro t' ht'
      obtain rfl := Option.some.inj ht'
      exact hlt
  | seeded => exact Or.inr ⟨rfl, nofun⟩
  | kept => exact Or.inl ⟨_, rfl, rfl⟩

/-- A granted use falls before the end of the term it is counted in. -/
theorem lt_end (hlen : 0 < len) (h : Move len now op p t true) :
    now < t.start + len := by
  cases h with
  | opened _ => simpa using hlen
  | spent ht _ => exact ht
  | rolled _ => simpa using hlen

/-- Every grant is counted in the term it leaves. -/
theorem grant_le_used (h : Move len now op p t g) :
    (if g = true then 1 else 0) ≤ t.used := by
  cases h <;> simp

/-- In a term that goes on, the count grows by the grants. -/
theorem used_of_start (hlen : 0 < len) (h : Move len now op (some t₁) t g)
    (hs : t.start = t₁.start) : t.used = t₁.used + if g = true then 1 else 0 := by
  cases h with
  | spent _ _ => rfl
  | refused _ _ => rfl
  | rolled hlt =>
      simp only at hs
      omega
  | kept => rfl

/-- A new term counts its first use: the grant, or the one of a seed. -/
theorem used_of_opens (h : Move len now op p t g)
    (hnew : ∀ t', p = some t' → t'.start ≠ t.start) :
    t.used = (if g = true then 1 else 0) + if op = .seed then 1 else 0 := by
  cases h with
  | opened _ => rfl
  | shut _ => rfl
  | spent _ _ => exact (hnew _ rfl rfl).elim
  | refused _ _ => exact (hnew _ rfl rfl).elim
  | rolled _ => rfl
  | seeded => rfl
  | kept => exact (hnew _ rfl rfl).elim

end Move

namespace Item

variable {i : Item}

theorem move_of_granted (h : i.granted len = true) :
    Move len i.now i.op i.prior (i.term len) true := h ▸ i.move len

theorem limit_pos_of_granted (h : i.granted len = true) {limit : Int}
    (hop : i.op = .charge limit) : 0 < limit ∨ i.RollsOver len := by
  have hm := move_of_granted h
  rw [hop] at hm
  exact hm.limit_pos

theorem granted_of_rollsOver (h : i.RollsOver len) {limit : Int}
    (hop : i.op = .charge limit) : i.granted len = true := by
  obtain ⟨t, hp, hlt⟩ := h
  simp [Item.granted, hop, hp, step, hlt.not_gt]

end Item

namespace Log

theorem of_snoc {t₀ ot : Option Term} {l : List Item} {i : Item}
    (h : Log len t₀ (l ++ [i]) ot) :
    Log len t₀ l i.prior ∧ ot = some (i.term len) := by
  generalize hl : l ++ [i] = l' at h
  cases h with
  | nil => simp at hl
  | snoc h hp _ =>
      obtain ⟨rfl, hij⟩ := List.append_inj' hl rfl
      obtain rfl := List.singleton_inj.mp hij
      exact ⟨hp ▸ h, rfl⟩

/-- The running term was started by some operation of the history. -/
theorem start_mem {l : List Item} {t : Term} (h : Log len none l (some t)) :
    ∃ j ∈ l, j.now = t.start := by
  generalize ht : some t = ot at h
  induction h generalizing t with
  | nil => cases ht
  | @snoc l t' i h hp _ ih =>
      obtain rfl := Option.some.inj ht
      rcases (i.move len).start_cases with ⟨t₁, hp₁, hs⟩ | ⟨hs, -⟩
      · obtain ⟨j, hj, hjn⟩ := ih (hp₁.symm.trans hp)
        exact ⟨j, List.mem_append_left _ hj, hjn.trans hs.symm⟩
      · exact ⟨i, by simp, hs.symm⟩

/-- The term running at the end of a history that began with a term is that
term or one that started after its end. -/
theorem start_later (hlen : 0 < len) {t : Term} {l : List Item} {ot : Option Term}
    (h : Log len (some t) l ot) :
    ∃ t', ot = some t' ∧ (t'.start = t.start ∨ t.start + len ≤ t'.start) := by
  induction h with
  | nil => exact ⟨t, rfl, Or.inl rfl⟩
  | @snoc l ot i h hp hn ih =>
      obtain ⟨t', rfl, ht'⟩ := ih
      refine ⟨_, rfl, ?_⟩
      rcases (i.move len).start_cases with ⟨t₁, hp₁, hs⟩ | ⟨hs, hend⟩
      · obtain rfl := Option.some.inj (hp.symm.trans hp₁)
        rwa [hs]
      · have := hend t' hp
        omega

/-- A term never starts in the future. -/
theorem start_le_now {l : List Item} {t : Option Term} (h : Log len none l t) :
    ∀ i ∈ l, (i.term len).start ≤ i.now := by
  induction h with
  | nil => exact fun i hi => (List.not_mem_nil hi).elim
  | @snoc l t i h hp hn ih =>
      intro j hj
      rcases List.mem_append.mp hj with hj | hj
      · exact ih j hj
      · obtain rfl := List.mem_singleton.mp hj
        rcases (j.move len).start_cases with ⟨t₁, hp₁, hs⟩ | ⟨hs, -⟩
        · subst hp
          rw [hp₁] at h
          obtain ⟨i, hi, hin⟩ := h.start_mem
          have := hn i hi
          omega
        · exact hs.le

/-- Every term of the history is the running one or ended before it. -/
theorem start_le (hlen : 0 < len) {l : List Item} {t : Option Term}
    (h : Log len none l t) : ∀ i ∈ l, ∃ t', t = some t'
      ∧ ((i.term len).start = t'.start ∨ (i.term len).start + len ≤ t'.start) := by
  induction h with
  | nil => exact fun i hi => (List.not_mem_nil hi).elim
  | @snoc l t i h hp _ ih =>
      intro j hj
      refine ⟨_, rfl, ?_⟩
      rcases List.mem_append.mp hj with hj | hj
      · obtain ⟨t', rfl, hjt⟩ := ih j hj
        rcases (i.move len).start_cases with ⟨t₁, hp₁, hs⟩ | ⟨hs, hend⟩
        · obtain rfl := Option.some.inj (hp.symm.trans hp₁)
          rw [hs]
          exact hjt
        · have := hend t' hp
          omega
      · obtain rfl := List.mem_singleton.mp hj
        exact Or.inl rfl

/-- **Terms do not overlap.** Of two operations, the later one is in the
same term or in one that started at least `len` later. -/
theorem start_gap (hlen : 0 < len) {l : List Item} {t : Option Term}
    (h : Log len none l t) : l.Pairwise fun i j =>
      (i.term len).start = (j.term len).start
        ∨ (i.term len).start + len ≤ (j.term len).start := by
  induction h with
  | nil => exact .nil
  | @snoc l t i h hp hn ih =>
      refine List.pairwise_append.mpr ⟨ih, List.pairwise_singleton .., ?_⟩
      intro j hj k hk
      obtain rfl := List.mem_singleton.mp hk
      obtain ⟨t', ht', hgap⟩ := (Log.snoc h hp hn).start_le hlen j
        (List.mem_append_left _ hj)
      obtain rfl := Option.some.inj ht'
      exact hgap

/-- Any two operations are in the same term or in disjoint ones. -/
theorem start_apart (hlen : 0 < len) {l : List Item} {t : Option Term}
    (h : Log len none l t) {i j : Item} (hi : i ∈ l) (hj : j ∈ l) :
    (i.term len).start = (j.term len).start
      ∨ (i.term len).start + len ≤ (j.term len).start
      ∨ (j.term len).start + len ≤ (i.term len).start := by
  let R := fun i j : Item => (i.term len).start = (j.term len).start
    ∨ (i.term len).start + len ≤ (j.term len).start
    ∨ (j.term len).start + len ≤ (i.term len).start
  have hR : l.Pairwise R :=
    (h.start_gap hlen).imp fun hab => hab.elim Or.inl fun h => Or.inr (Or.inl h)
  have hR' : l.Pairwise (flip R) := hR.imp fun {a b} hab => by
    simp only [R, flip] at hab ⊢
    omega
  have hrefl : ∀ k ∈ l, R k k := fun k _ => Or.inl rfl
  exact List.Pairwise.forall_of_forall_of_flip hrefl hR hR' hi hj

/-! ## Grants of a term -/

/-- A start that no operation used has no grants. -/
theorem grants_eq_zero {l : List Item} {s : Int}
    (h : ∀ i ∈ l, (i.term len).start ≠ s) : grants len s l = 0 := by
  simp only [grants, List.countP_eq_zero]
  intro i hi
  simp [h i hi]

/-- A new term starts with no grants counted before it. -/
theorem grants_new (hlen : 0 < len) {l : List Item} {t : Option Term} {i : Item}
    (h : Log len none l t) (hp : i.prior = t)
    (hs : (i.term len).start = i.now)
    (hend : ∀ t, i.prior = some t → t.start + len ≤ i.now) :
    grants len (i.term len).start l = 0 := by
  refine grants_eq_zero ?_
  intro j hj
  obtain ⟨t', ht', hjt⟩ := h.start_le hlen j hj
  have := hend t' (hp.trans ht')
  omega

/-- The running term's grants are all counted in it. -/
theorem grants_le_used (hlen : 0 < len) {l : List Item} {t : Term}
    (h : Log len none l (some t)) : grants len t.start l ≤ t.used := by
  generalize ht : some t = ot at h
  induction h generalizing t with
  | nil => cases ht
  | @snoc l t' i h hp hn ih =>
      obtain rfl := Option.some.inj ht
      rw [grants_snoc]
      have hm := i.move len
      rcases hm.start_cases with ⟨t₁, hp₁, hs⟩ | ⟨hs, hend⟩
      · have hih := ih (hp₁.symm.trans hp)
        rw [hp₁] at hm
        have hused := hm.used_of_start hlen hs
        rw [hs]
        simpa [hused] using hih
      · rw [h.grants_new hlen hp hs hend]
        simpa using hm.grant_le_used

/-- **The count of a term is exact**: the grants from the operation that opened
it on, and one more if that was a seed. -/
theorem used_of_opens (hlen : 0 < len) {pre post : List Item} {i : Item} {t : Term}
    (h : Log len none (pre ++ i :: post) (some t)) (hi : i.Opens len)
    (hs : (i.term len).start = t.start) :
    t.used = (i :: post).countP (Item.granted len) + if i.op = .seed then 1 else 0 := by
  induction post using List.reverseRecOn generalizing t with
  | nil =>
      obtain rfl := Option.some.inj h.of_snoc.2
      rw [List.countP_cons, List.countP_nil, Nat.zero_add]
      exact (i.move len).used_of_opens hi
  | append_singleton post j ih =>
      rw [← List.cons_append, ← List.append_assoc] at h
      obtain ⟨hbefore, ht⟩ := h.of_snoc
      obtain rfl := Option.some.inj ht
      obtain ⟨t', hp, hle⟩ := hbefore.start_le hlen i (by simp)
      have hm := j.move len
      rw [hp] at hbefore hm
      -- no new term has started, or that of `i` would have ended
      have hstart : (j.term len).start = t'.start := by
        rcases hm.start_cases with ⟨t₁, ht₁, heq⟩ | ⟨hnow, hend⟩
        · rw [heq, Option.some.inj ht₁]
        · have := hend t' rfl
          omega
      rw [← List.cons_append, List.countP_append, List.countP_singleton,
        hm.used_of_start hlen hstart, ih hbefore (hs.trans hstart)]
      omega

/-- A term with a grant has one at which the count of the term had reached
the number of its grants: the last of them. -/
theorem used_of_grants (hlen : 0 < len) {l : List Item} {t : Option Term}
    (h : Log len none l t) {s : Int} (hs : 0 < grants len s l) :
    ∃ i ∈ l, i.granted len = true ∧ (i.term len).start = s
      ∧ grants len s l ≤ (i.term len).used := by
  induction h with
  | nil => simp [grants] at hs
  | @snoc l t i h hp hn ih =>
      by_cases hi : i.granted len = true ∧ (i.term len).start = s
      · obtain ⟨hg, rfl⟩ := hi
        exact ⟨i, by simp, hg, rfl, (Log.snoc h hp hn).grants_le_used hlen⟩
      · rw [grants_snoc, if_neg hi] at hs ⊢
        obtain ⟨j, hj, hrest⟩ := ih hs
        exact ⟨j, List.mem_append_left _ hj, hrest⟩

/-- **A term's grants respect a limit of that term**, provided no term was
rolled over while the limit was zero: the limit at the last grant bounds
them all. -/
theorem limit_of_granted (hlen : 0 < len) {l : List Item} {t : Option Term}
    (h : Log len none l t)
    (hroll : ∀ i ∈ l, ∀ limit, i.op = .charge limit → i.RollsOver len → 0 < limit)
    {s : Int} (hs : 0 < grants len s l) :
    ∃ i ∈ l, i.granted len = true ∧ (i.term len).start = s
      ∧ ∃ limit, i.op = .charge limit ∧ (grants len s l : Int) ≤ limit := by
  obtain ⟨i, hi, hg, hst, hle⟩ := h.used_of_grants hlen hs
  obtain ⟨limit, hop, hused⟩ := (Item.move_of_granted hg).used_of_granted
  refine ⟨i, hi, hg, hst, limit, hop, ?_⟩
  rcases hused with hused | ⟨hover, hone⟩
  · omega
  · have := hroll i hi limit hop hover
    omega

/-- Every term's grants are within any positive bound on the limits. -/
theorem grants_le (hlen : 0 < len) {l : List Item} {t : Option Term}
    (h : Log len none l t) {L : Int} (hL : 1 ≤ L)
    (hlim : ∀ i ∈ l, ∀ limit, i.op = .charge limit → limit ≤ L) (s : Int) :
    (grants len s l : Int) ≤ L := by
  rcases Nat.eq_zero_or_pos (grants len s l) with hz | hpos
  · omega
  · obtain ⟨i, hi, hg, -, hle⟩ := h.used_of_grants hlen hpos
    obtain ⟨limit, hop, hused⟩ := (Item.move_of_granted hg).used_of_granted
    have := hlim i hi limit hop
    omega

end Log

/-! ## Windows -/

/-- A count is at most the sum of the counts of two cases that cover it. -/
theorem countP_le_add {α : Type} {p q r : α → Bool} :
    ∀ {l : List α}, (∀ x ∈ l, p x = true → q x = true ∨ r x = true) →
      l.countP p ≤ l.countP q + l.countP r
  | [], _ => Nat.le_refl 0
  | x :: l, h => by
      have ih := countP_le_add fun y hy => h y (List.mem_cons_of_mem _ hy)
      have hx := h x (List.mem_cons_self ..)
      simp only [List.countP_cons]
      split <;> split <;> split <;> simp_all <;> omega

/-- The uses granted at times in `[h, h + len)`. -/
def windowGrants (len h : Int) (l : List Item) : Nat :=
  l.countP fun i => i.granted len && decide (h ≤ i.now ∧ i.now < h + len)

namespace Log

/-- A window of length `len` meets at most two terms: three starts that are
pairwise `len` apart do not fit into what it can see. -/
theorem two_starts (hlen : 0 < len) {l : List Item} {t : Option Term}
    (h : Log len none l t) (h₀ : Int) : ∃ a b, ∀ i ∈ l, i.granted len = true →
      h₀ ≤ i.now → i.now < h₀ + len →
      (i.term len).start = a ∨ (i.term len).start = b := by
  by_contra hno
  push Not at hno
  obtain ⟨i, hi, hig, hi₁, hi₂, -, -⟩ := hno 0 0
  obtain ⟨j, hj, hjg, hj₁, hj₂, hji, -⟩ := hno (i.term len).start (i.term len).start
  obtain ⟨k, hk, hkg, hk₁, hk₂, hki, hkj⟩ := hno (i.term len).start (j.term len).start
  have := h.start_apart hlen hi hj
  have := h.start_apart hlen hi hk
  have := h.start_apart hlen hj hk
  have := h.start_le_now i hi
  have := h.start_le_now j hj
  have := h.start_le_now k hk
  have := (Item.move_of_granted hig).lt_end hlen
  have := (Item.move_of_granted hjg).lt_end hlen
  have := (Item.move_of_granted hkg).lt_end hlen
  omega

/-- **Any window sees at most two terms' worth of grants.** -/
theorem window_bound (hlen : 0 < len) {l : List Item} {t : Option Term}
    (h : Log len none l t) {L : Int} (hL : 1 ≤ L)
    (hlim : ∀ i ∈ l, ∀ limit, i.op = .charge limit → limit ≤ L) (h₀ : Int) :
    (windowGrants len h₀ l : Int) ≤ 2 * L := by
  obtain ⟨a, b, hab⟩ := h.two_starts hlen h₀
  have hcount : windowGrants len h₀ l ≤ grants len a l + grants len b l := by
    refine countP_le_add ?_
    intro i hi hgi
    simp only [Bool.and_eq_true, decide_eq_true_eq] at hgi ⊢
    obtain ⟨hg, h₁, h₂⟩ := hgi
    exact (hab i hi hg h₁ h₂).imp (⟨hg, ·⟩) (⟨hg, ·⟩)
  have ha := h.grants_le hlen hL hlim a
  have hb := h.grants_le hlen hL hlim b
  omega

end Log

/-! ## What is left -/

/-- A use is granted exactly when something is left, and then takes one. -/
theorem charge_left (hlen : 0 < len) (now : Int) {limit : Int} (hl : 1 ≤ limit)
    (t : Term) :
    ((step len now (.charge limit) (some t)).2 = true ↔ 0 < left len now limit t)
      ∧ left len now limit (step len now (.charge limit) (some t)).1
        = left len now limit t
          - if (step len now (.charge limit) (some t)).2 = true then 1 else 0 := by
  have hm := step_move len now (.charge limit) (some t)
  generalize (step len now (.charge limit) (some t)).1 = t' at hm ⊢
  generalize (step len now (.charge limit) (some t)).2 = g at hm ⊢
  cases hm with
  | spent ht h => simp [left, ht]; omega
  | refused ht h => simp [left, ht, h]
  | rolled ht =>
      have hnot : ¬ now < t.start + len := by omega
      simp [left, hnot, hlen]
      omega

theorem getElem?_snoc {α : Type} {l : List α} {a b : α} {n : Nat}
    (h : (l ++ [a])[n]? = some b) :
    n < l.length ∧ l[n]? = some b ∨ n = l.length ∧ a = b := by
  rcases Nat.lt_trichotomy n l.length with hlt | rfl | hgt
  · rw [List.getElem?_append_left hlt] at h
    exact Or.inl ⟨hlt, h⟩
  · rw [List.getElem?_concat_length] at h
    exact Or.inr ⟨rfl, Option.some.inj h⟩
  · rw [List.getElem?_eq_none (by simp; omega)] at h
    cases h

/-- The operations that ask for a use. -/
def charges (l : List Item) : List Item :=
  l.filter fun i => match i.op with
    | .charge _ => true
    | .seed => false

/-- **What is left is exact.** In a history at one moment and under one
limit, the first operations that ask are granted, as many as were left at
its start, and no later one. -/
theorem Log.granted_iff_left (hlen : 0 < len) {now limit : Int} (hl : 1 ≤ limit)
    {t : Term} {l : List Item} {t' : Option Term} (h : Log len (some t) l t')
    (hnow : ∀ i ∈ l, i.now = now)
    (hlim : ∀ i ∈ l, ∀ limit', i.op = .charge limit' → limit' = limit) :
    (∃ t₁, t' = some t₁ ∧ left len now limit t₁ = left len now limit t
        - min ((charges l).length : Int) (max 0 (left len now limit t)))
      ∧ ∀ (n : Nat) (i : Item), (charges l)[n]? = some i →
        (i.granted len = true ↔ (n : Int) < left len now limit t) := by
  induction h with
  | nil => simp [charges]
  | @snoc l t₁ i h hp hn ih =>
      obtain ⟨⟨t₂, rfl, hleft⟩, hgr⟩ := ih (fun j hj => hnow j (by simp [hj]))
        (fun j hj => hlim j (by simp [hj]))
      have hinow := hnow i (by simp)
      have hilim := hlim i (by simp)
      obtain ⟨inow, op, prior⟩ := i
      simp only at hinow hilim hp
      subst hinow hp
      cases op with
      | seed =>
          simpa [charges, Item.term, step] using And.intro hleft hgr
      | charge limit' =>
          obtain rfl := hilim _ rfl
          obtain ⟨hiff, hstep⟩ := charge_left hlen inow hl t₂
          have hch : charges (l ++ [⟨inow, .charge limit', some t₂⟩])
              = charges l ++ [⟨inow, .charge limit', some t₂⟩] := by
            simp [charges]
          rw [hch]
          refine ⟨⟨_, rfl, ?_⟩, ?_⟩
          · rw [Item.term, hstep, List.length_append, List.length_singleton]
            split <;> rename_i hg <;> rw [hiff] at hg <;> push_cast <;> omega
          · intro n j hj
            rcases getElem?_snoc hj with ⟨-, hj⟩ | ⟨rfl, rfl⟩
            · exact hgr n j hj
            · rw [Item.granted, hiff, hleft]
              omega

end FixedWindow
