import Mathlib.Algebra.Order.Floor.Ring
import Mathlib.Tactic.Positivity
import Mathlib.Tactic.Ring

/-!
# Truncation toward zero

The integer part of a number toward zero, and the number cut off after a unit. For a quotient of
integers it is truncated division.
-/

namespace Coreutils.Truncation

variable {K : Type*} [Field K] [LinearOrder K] [IsStrictOrderedRing K] [FloorRing K]

def toward (q : K) : ℤ := if 0≤q then ⌊q⌋ else ⌈q⌉

/-- The multiple of `1 / u` next to `q`, toward zero. -/
def truncateAt (u q : K) : K := toward (q*u)/u

omit [IsStrictOrderedRing K] in
theorem toward_of_nonneg {q : K} (h : 0≤q) : toward q=⌊q⌋ := if_pos h

theorem toward_neg (q : K) : toward (-q) = -toward q := by
  unfold toward
  rcases lt_trichotomy q 0 with h | rfl | h
  · rw [if_pos (by linarith),if_neg (not_le.mpr h),Int.floor_neg]
  · simp
  · rw [if_neg (by linarith),if_pos h.le,Int.ceil_neg]

theorem toward_natCast_div (a b : ℕ) : toward ((a : K)/b)=(a/b : ℕ) := by
  rw [toward_of_nonneg (by positivity)]
  rcases eq_zero_or_pos b with rfl | hb
  · simp
  have hb' : (0 : K)<b := by exact_mod_cast hb
  rw [Int.floor_eq_iff,le_div_iff₀ hb',div_lt_iff₀ hb']
  constructor
  · exact_mod_cast Nat.div_mul_le_self a b
  · exact_mod_cast Nat.lt_div_mul_add hb |>.trans_eq (by ring)

theorem toward_div (a b : ℤ) : toward ((a : K)/b)=a.tdiv b := by
  obtain ⟨m,rfl | rfl⟩ := a.eq_nat_or_neg <;> obtain ⟨n,rfl | rfl⟩ := b.eq_nat_or_neg
  · simpa using toward_natCast_div m n
  · rw [Int.cast_neg,div_neg,toward_neg]
    simpa using toward_natCast_div m n
  · rw [Int.cast_neg,neg_div,toward_neg]
    simpa using toward_natCast_div m n
  · simpa using toward_natCast_div m n

theorem sub_toward_of_nonneg {q : K} (h : 0≤q) : 0≤q-toward q ∧ q-toward q<1 := by
  rw [toward_of_nonneg h]
  have h₁ := Int.floor_le q
  have h₂ := Int.lt_floor_add_one q
  constructor <;> linarith

theorem sub_truncateAt_of_nonneg {u q : K} (hu : 0<u) (h : 0≤q) :
    0≤q-truncateAt u q ∧ q-truncateAt u q<1/u := by
  obtain ⟨h₀,h₁⟩ := sub_toward_of_nonneg (mul_nonneg h hu.le)
  have heq : q-truncateAt u q=(q*u-toward (q*u))/u := by
    rw [truncateAt]
    field_simp
  rw [heq]
  exact ⟨div_nonneg h₀ hu.le,div_lt_div_of_pos_right h₁ hu⟩

theorem truncateAt_neg (u q : K) : truncateAt u (-q) = -truncateAt u q := by
  rw [truncateAt,truncateAt,neg_mul,toward_neg,Int.cast_neg,neg_div]

/-- What is cut off is less than a unit and has the sign of the number. -/
theorem sub_truncateAt {u q : K} (hu : 0<u) :
    |q-truncateAt u q| < 1/u ∧ (0≤q→0≤q-truncateAt u q) ∧
      (q≤0→q-truncateAt u q≤0) := by
  rcases le_total 0 q with h | h
  · obtain ⟨h₀,h₁⟩ := sub_truncateAt_of_nonneg hu h
    refine ⟨by rwa [abs_of_nonneg h₀],fun _ => h₀,fun h' => ?_⟩
    obtain rfl := le_antisymm h' h
    simp [truncateAt,toward]
  · obtain ⟨h₀,h₁⟩ := sub_truncateAt_of_nonneg hu (neg_nonneg.mpr h)
    rw [truncateAt_neg] at h₀ h₁
    refine ⟨?_,fun h' => ?_,fun _ => by linarith⟩
    · rw [abs_of_nonpos (by linarith)]
      linarith
    · obtain rfl := le_antisymm h h'
      simp [truncateAt,toward]

end Coreutils.Truncation
