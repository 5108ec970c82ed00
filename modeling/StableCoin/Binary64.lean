import Mathlib.Data.Int.Log
import Mathlib.Data.Rat.Floor
import Mathlib.Tactic.Linarith
import Mathlib.Tactic.NormNum

/-!
# Correctly rounded quotients

The division of two integers that gives a double: the exact quotient,
rounded to the nearest number with a 53-bit significand, ties to the even
one. Doubles are the rational numbers they stand for; a quotient is an
error when the divisor is zero or the result has no double.

A program that compares such a quotient with a constant does not compare
the exact quotient with it: `le_round_iff` is what it compares.
-/

namespace Binary64

/-! ## Rounding -/

/-- The nearest integer, ties to the even one. -/
def roundEven (q : ℚ) : ℤ :=
  let n := ⌊q⌋
  if q - n < 1 / 2 then n
  else if 1 / 2 < q - n then n + 1
  else if n % 2 = 0 then n else n + 1

/-- The exponent of the last place of a double near `q`; below the normal
numbers it does not sink any further. -/
def lastPlace (q : ℚ) : ℤ := max (Int.log 2 |q| - 52) (-1074)

def round (q : ℚ) : ℚ := roundEven (q / 2 ^ lastPlace q) * 2 ^ lastPlace q

inductive Fault where
  | zeroDivision
  | overflow
deriving DecidableEq, Repr

/-- `a / b` as a double. -/
def truediv (a b : ℤ) : Except Fault ℚ :=
  if b = 0 then .error .zeroDivision
  else if 2 ^ 1024 ≤ |round (a / b)| then .error .overflow
  else .ok (round (a / b))

/-! ## What rounds up to an integer -/

theorem roundEven_cases (q : ℚ) :
    (roundEven q = ⌊q⌋ ∧ q ≤ ⌊q⌋ + 1 / 2 ∧ (q = ⌊q⌋ + 1 / 2 → ⌊q⌋ % 2 = 0))
    ∨ (roundEven q = ⌊q⌋ + 1 ∧ ⌊q⌋ + 1 / 2 ≤ q ∧ (q = ⌊q⌋ + 1 / 2 → ⌊q⌋ % 2 = 1)) := by
  rw [roundEven]
  split
  · exact Or.inl ⟨rfl, by linarith, fun h => by linarith⟩
  · split
    · exact Or.inr ⟨rfl, by linarith, fun h => by linarith⟩
    · split
      · exact Or.inl ⟨rfl, by linarith, fun _ => ‹_›⟩
      · exact Or.inr ⟨rfl, by linarith, fun _ => by omega⟩

/-- An odd number is reached from strictly above the middle below it: the
middle itself goes down to the even neighbour. -/
theorem le_roundEven_iff {m : ℤ} (hm : m % 2 = 1) {q : ℚ} :
    m ≤ roundEven q ↔ (m : ℚ) - 1 / 2 < q := by
  have hle := Int.floor_le q
  have hlt := Int.lt_floor_add_one q
  constructor
  · intro h
    rcases lt_or_ge ⌊q⌋ m with hf | hf
    · have hf' : (⌊q⌋ : ℚ) + 1 ≤ m := by exact_mod_cast hf
      rcases roundEven_cases q with ⟨hr, -, -⟩ | ⟨hr, hq, htie⟩
      · omega
      · have hfm : m = ⌊q⌋ + 1 := by omega
        have hne : q ≠ ⌊q⌋ + 1 / 2 := fun hq' => by
          have := htie hq'
          omega
        have hm' : (m : ℚ) = ⌊q⌋ + 1 := by exact_mod_cast hfm
        have hlt' : (⌊q⌋ : ℚ) + 1 / 2 < q := lt_of_le_of_ne hq (Ne.symm hne)
        linarith
    · have hf' : (m : ℚ) ≤ ⌊q⌋ := by exact_mod_cast hf
      linarith
  · intro h
    rcases lt_or_ge ⌊q⌋ m with hf | hf
    · have hfm : m = ⌊q⌋ + 1 := by
        have : (m : ℚ) - 1 / 2 < ⌊q⌋ + 1 := h.trans hlt
        have : (m : ℚ) < ⌊q⌋ + 2 := by linarith
        have : m < ⌊q⌋ + 2 := by exact_mod_cast this
        omega
      have hm' : (m : ℚ) = ⌊q⌋ + 1 := by exact_mod_cast hfm
      rcases roundEven_cases q with ⟨-, hq, -⟩ | ⟨hr, -, -⟩
      · linarith
      · omega
    · rcases roundEven_cases q with ⟨hr, -, -⟩ | ⟨hr, -, -⟩ <;> omega

theorem le_roundEven_of_le {m : ℤ} {q : ℚ} (h : (m : ℚ) ≤ q) : m ≤ roundEven q := by
  have hf : m ≤ ⌊q⌋ := Int.le_floor.mpr h
  rcases roundEven_cases q with ⟨hr, -, -⟩ | ⟨hr, -, -⟩ <;> omega

theorem roundEven_le_of_le {m : ℤ} {q : ℚ} (h : q ≤ m) : roundEven q ≤ m := by
  have hf : (⌊q⌋ : ℚ) ≤ m := (Int.floor_le q).trans h
  have hf' : ⌊q⌋ ≤ m := by exact_mod_cast hf
  rcases roundEven_cases q with ⟨hr, -, -⟩ | ⟨hr, hq, -⟩
  · omega
  · have : (⌊q⌋ : ℚ) + 1 / 2 ≤ m := hq.trans h
    have : (⌊q⌋ : ℚ) < m := by linarith
    have : ⌊q⌋ < m := by exact_mod_cast this
    omega

/-- The nearest integer is the only one within a half. -/
theorem roundEven_eq {m : ℤ} {q : ℚ} (hlo : (m : ℚ) - 1 / 2 < q) (hhi : q < m + 1 / 2) :
    roundEven q = m := by
  have hle := Int.floor_le q
  have hlt := Int.lt_floor_add_one q
  rcases roundEven_cases q with ⟨hr, hq, -⟩ | ⟨hr, hq, -⟩
  · have h₁ : (m : ℚ) < ⌊q⌋ + 1 := by linarith
    have h₂ : (⌊q⌋ : ℚ) < m + 1 := by linarith
    have h₁' : m < ⌊q⌋ + 1 := by exact_mod_cast h₁
    have h₂' : ⌊q⌋ < m + 1 := by exact_mod_cast h₂
    omega
  · have h₁ : (m : ℚ) < ⌊q⌋ + 2 := by linarith
    have h₂ : (⌊q⌋ : ℚ) < m := by linarith
    have h₁' : m < ⌊q⌋ + 2 := by exact_mod_cast h₁
    have h₂' : ⌊q⌋ < m := by exact_mod_cast h₂
    omega

/-! ## What rounds up to a double -/

theorem two_zpow_pos (e : ℤ) : (0 : ℚ) < 2 ^ e := zpow_pos (by norm_num) e

theorem round_nonpos {q : ℚ} (hq : q ≤ 0) : round q ≤ 0 := by
  have hdiv : q / 2 ^ lastPlace q ≤ ((0 : ℤ) : ℚ) := by
    rw [Int.cast_zero]
    exact div_nonpos_of_nonpos_of_nonneg hq (two_zpow_pos _).le
  have hz : (roundEven (q / 2 ^ lastPlace q) : ℚ) ≤ 0 := by
    exact_mod_cast roundEven_le_of_le hdiv
  exact mul_nonpos_of_nonpos_of_nonneg hz (two_zpow_pos _).le

theorem round_nonneg {q : ℚ} (hq : 0 ≤ q) : 0 ≤ round q := by
  have hdiv : ((0 : ℤ) : ℚ) ≤ q / 2 ^ lastPlace q := by
    rw [Int.cast_zero]
    exact div_nonneg hq (two_zpow_pos _).le
  have hz : (0 : ℚ) ≤ roundEven (q / 2 ^ lastPlace q) := by
    exact_mod_cast le_roundEven_of_le hdiv
  exact mul_nonneg hz (two_zpow_pos _).le

/-- Below the normal numbers with last place `e`, rounding does not reach
above the smallest of them. -/
theorem round_le_of_lastPlace_lt {q : ℚ} (hq : 0 < q) {e : ℤ} (h : lastPlace q < e) :
    q < 2 ^ 52 * 2 ^ e ∧ round q ≤ 2 ^ 52 * 2 ^ e := by
  have hlt : q < 2 ^ (e + 52) := by
    have hlog : Int.log 2 |q| + 1 ≤ e + 52 := by
      have := (le_max_left _ _).trans_lt h
      omega
    have hself := Int.lt_zpow_succ_log_self (b := 2) (by decide) |q|
    rw [abs_of_pos hq] at hself hlog
    exact hself.trans_le (zpow_le_zpow_right₀ (by norm_num) hlog)
  have hsplit : (2 : ℚ) ^ (e + 52) = 2 ^ 52 * 2 ^ e := by
    rw [zpow_add₀ (by norm_num), mul_comm]
    norm_num
  have hexp : (2 : ℚ) ^ ((e + 52 - lastPlace q).toNat : ℤ) * 2 ^ lastPlace q
      = 2 ^ (e + 52) := by
    rw [← zpow_add₀ (by norm_num)]
    congr 1
    omega
  refine ⟨hsplit ▸ hlt, ?_⟩
  have hdiv : q / 2 ^ lastPlace q ≤ ((2 ^ (e + 52 - lastPlace q).toNat : ℤ) : ℚ) := by
    rw [div_le_iff₀ (two_zpow_pos _)]
    rw [← hexp] at hlt
    exact_mod_cast hlt.le
  have hr : (roundEven (q / 2 ^ lastPlace q) : ℚ)
      ≤ (2 : ℚ) ^ ((e + 52 - lastPlace q).toNat : ℤ) := by
    exact_mod_cast roundEven_le_of_le hdiv
  calc round q
      ≤ (2 : ℚ) ^ ((e + 52 - lastPlace q).toNat : ℤ) * 2 ^ lastPlace q :=
        mul_le_mul_of_nonneg_right hr (two_zpow_pos _).le
    _ = 2 ^ 52 * 2 ^ e := hexp.trans hsplit

/-- Above the normal numbers with last place `e`, rounding stays above them. -/
theorem le_round_of_lt_lastPlace {q : ℚ} (hq : 0 < q) {e : ℤ} (he : -1074 ≤ e)
    (h : e < lastPlace q) : 2 ^ 53 * 2 ^ e ≤ q ∧ 2 ^ 53 * 2 ^ e ≤ round q := by
  have hlog : lastPlace q = Int.log 2 q - 52 := by
    refine ((max_choice _ _).resolve_right fun hr => ?_).trans (by rw [abs_of_pos hq])
    rw [lastPlace, hr] at h
    omega
  have hself : (2 : ℚ) ^ 52 * 2 ^ lastPlace q ≤ q := by
    have hle := Int.zpow_log_le_self (b := 2) (by decide) hq
    rw [← sub_add_cancel (Int.log 2 q) 52, ← hlog] at hle
    rw [mul_comm]
    exact_mod_cast (zpow_add₀ (by norm_num : (2 : ℚ) ≠ 0) _ 52) ▸ hle
  have hdiv : ((2 ^ 52 : ℤ) : ℚ) ≤ q / 2 ^ lastPlace q := by
    rw [le_div_iff₀ (two_zpow_pos _)]
    exact_mod_cast hself
  have hr : (2 : ℚ) ^ 52 ≤ (roundEven (q / 2 ^ lastPlace q) : ℚ) := by
    exact_mod_cast le_roundEven_of_le hdiv
  have hround : (2 : ℚ) ^ 52 * 2 ^ lastPlace q ≤ round q :=
    mul_le_mul_of_nonneg_right hr (two_zpow_pos _).le
  have hstep : (2 : ℚ) ^ 53 * 2 ^ e ≤ 2 ^ 52 * 2 ^ lastPlace q := by
    have hle : (2 : ℚ) ^ (e + 1) ≤ 2 ^ lastPlace q :=
      zpow_le_zpow_right₀ (by norm_num) (by omega)
    rw [zpow_add₀ (by norm_num), zpow_one] at hle
    linarith
  exact ⟨hstep.trans hself, hstep.trans hround⟩

/-- **What a comparison with a double compares.** Where the significand of
the double is odd, the quotients that round to at least it are those
strictly above the middle between it and its predecessor. -/
theorem le_round_iff {m e : ℤ} (hodd : m % 2 = 1) (hlo : 2 ^ 52 < m) (hhi : m < 2 ^ 53)
    (he : -1074 ≤ e) {q : ℚ} :
    (m : ℚ) * 2 ^ e ≤ round q ↔ ((m : ℚ) - 1 / 2) * 2 ^ e < q := by
  have hlo' : (2 : ℚ) ^ 52 + 1 ≤ m := by exact_mod_cast hlo
  have hhi' : (m : ℚ) + 1 ≤ 2 ^ 53 := by exact_mod_cast hhi
  have hbelow : (2 : ℚ) ^ 52 * 2 ^ e < (m - 1 / 2) * 2 ^ e :=
    mul_lt_mul_of_pos_right (by linarith) (two_zpow_pos e)
  have hmid : ((m : ℚ) - 1 / 2) * 2 ^ e < m * 2 ^ e :=
    mul_lt_mul_of_pos_right (by linarith) (two_zpow_pos e)
  have habove : (m : ℚ) * 2 ^ e < 2 ^ 53 * 2 ^ e :=
    mul_lt_mul_of_pos_right (by linarith) (two_zpow_pos e)
  rcases le_or_gt q 0 with hq | hq
  · have hround := round_nonpos hq
    have hpos : (0 : ℚ) < 2 ^ 52 * 2 ^ e := mul_pos (by norm_num) (two_zpow_pos e)
    constructor <;> intro h <;> linarith
  · rcases lt_trichotomy (lastPlace q) e with hlt | heq | hgt
    · obtain ⟨hq', hround⟩ := round_le_of_lastPlace_lt hq hlt
      constructor <;> intro h <;> linarith
    · rw [round, heq, mul_le_mul_iff_left₀ (two_zpow_pos e), Int.cast_le,
        le_roundEven_iff hodd, lt_div_iff₀ (two_zpow_pos e)]
    · obtain ⟨hq', hround⟩ := le_round_of_lt_lastPlace hq he hgt
      constructor <;> intro h <;> linarith

/-- The double nearest to `q`, from its significand and its last place. -/
theorem round_eq {m e : ℤ} {q : ℚ} (hlo : 2 ^ (e + 52) ≤ q) (hhi : q < 2 ^ (e + 53))
    (he : -1074 ≤ e) (hm : (m : ℚ) - 1 / 2 < q / 2 ^ e ∧ q / 2 ^ e < m + 1 / 2) :
    round q = m * 2 ^ e := by
  have hq : 0 < q := (two_zpow_pos _).trans_le hlo
  have hlog : Int.log 2 |q| = e + 52 := by
    rw [abs_of_pos hq]
    refine le_antisymm (Int.lt_add_one_iff.mp ?_) ?_
    · exact (Int.lt_zpow_iff_log_lt (by decide) hq).mp (by simpa [add_assoc] using hhi)
    · exact (Int.zpow_le_iff_le_log (by decide) hq).mp (by exact_mod_cast hlo)
  have hplace : lastPlace q = e := by
    rw [lastPlace, hlog, add_sub_cancel_right, max_eq_left he]
  rw [round, hplace, roundEven_eq hm.1 hm.2]

/-! ## Comparing a quotient with a constant -/

theorem truediv_eq_zeroDivision {a b : ℤ} :
    truediv a b = .error .zeroDivision ↔ b = 0 := by
  rw [truediv]
  split
  · simpa
  · split <;> simpa

/-- A quotient that is not too large has a double. -/
theorem truediv_eq_ok {a b : ℤ} {n : ℕ} (hn : n < 1024) (ha : 0 ≤ a) (hb : 0 < b)
    (h : a < 2 ^ n * b) : truediv a b = .ok (round (a / b)) := by
  have hb' : (0 : ℚ) < b := by exact_mod_cast hb
  have hq : (0 : ℚ) ≤ a / b := div_nonneg (by exact_mod_cast ha) hb'.le
  have hlt : (a / b : ℚ) < 2 ^ (n : ℤ) := by
    rw [div_lt_iff₀ hb', zpow_natCast]
    exact_mod_cast h
  have hround : round (a / b) < 2 ^ 1024 := by
    rcases hq.eq_or_lt with hz | hpos
    · exact (round_nonpos hz.ge).trans_lt (by positivity)
    · have hlog : Int.log 2 (a / b : ℚ) < n := (Int.lt_zpow_iff_log_lt (by decide) hpos).mp hlt
      have hplace : lastPlace (a / b) < 971 := by
        rw [lastPlace, abs_of_pos hpos]
        exact max_lt (by omega) (by decide)
      refine (round_le_of_lastPlace_lt hpos hplace).2.trans_lt ?_
      rw [← zpow_natCast, ← zpow_natCast, ← zpow_add₀ (by norm_num)]
      exact zpow_lt_zpow_right₀ (by norm_num) (by norm_num)
  rw [truediv, if_neg hb.ne', if_neg]
  rw [abs_of_nonneg (round_nonneg hq)]
  exact hround.not_ge

/-- What the comparison is on the integers. -/
theorem le_truediv_iff {m : ℤ} {k : ℕ} (hodd : m % 2 = 1) (hlo : 2 ^ 52 < m)
    (hhi : m < 2 ^ 53) (hk : k ≤ 1074) {a b : ℤ} (hb : 0 < b) {x : ℚ}
    (h : truediv a b = .ok x) :
    (m : ℚ) * 2 ^ (-k : ℤ) ≤ x ↔ (2 * m - 1) * b < 2 ^ (k + 1) * a := by
  rw [truediv, if_neg hb.ne'] at h
  split at h
  · cases h
  · obtain rfl := Except.ok.inj h
    rw [le_round_iff hodd hlo hhi (by omega)]
    have hb' : (0 : ℚ) < b := by exact_mod_cast hb
    have hk' : (0 : ℚ) < 2 ^ k := by positivity
    rw [lt_div_iff₀ hb', zpow_neg, zpow_natCast, ← mul_lt_mul_iff_left₀ hk', ← @Int.cast_lt ℚ]
    push_cast
    rw [pow_succ, ← mul_lt_mul_iff_left₀ (by norm_num : (0 : ℚ) < 2)]
    field_simp

/-- Where the divisor is small enough for the middle to lie within one step
below the constant `p / r`, the comparison is exact. -/
theorem exact_of_small {m p r : ℤ} {k : ℕ} (hr : 0 < r)
    (hmid : (2 * m - 1) * r < 2 ^ (k + 1) * p) {a b : ℤ} (hb : 0 < b)
    (hsmall : (2 ^ (k + 1) * p - (2 * m - 1) * r) * b ≤ 2 ^ (k + 1)) :
    (2 * m - 1) * b < 2 ^ (k + 1) * a ↔ p * b ≤ r * a := by
  have hk : (0 : ℤ) < 2 ^ (k + 1) := by positivity
  constructor
  · intro h
    by_contra hlt
    have hle : r * a + 1 ≤ p * b := by omega
    have hmul := mul_lt_mul_of_pos_right h hr
    have hstep := mul_le_mul_of_nonneg_left hle hk.le
    linarith
  · intro h
    by_contra hle
    have hle' : 2 ^ (k + 1) * a ≤ (2 * m - 1) * b := by omega
    have hmul := mul_le_mul_of_nonneg_right hle' hr.le
    have hstep := mul_lt_mul_of_pos_right hmid hb
    have hup := mul_le_mul_of_nonneg_left h hk.le
    linarith

end Binary64
