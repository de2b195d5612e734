import Mathlib.Data.List.Basic

/-!
# Rewriting ranges of a list

An edit replaces a range of a list. Edits each behind the range of the one before rewrite the list
from left to right: the elements outside every range are copied once and in order.
-/

namespace Coreutils.Rewrites
open List

/-- The `count` elements from place `start` on become `text`. -/
structure Edit (α : Type*) where
  start : ℕ
  count : ℕ
  text : List α
  deriving DecidableEq,Repr

section
variable {α : Type*} {i j : ℕ} {es : List (Edit α)}

def Edit.stop (e : Edit α) : ℕ := e.start+e.count

def Within : ℕ→ℕ→List (Edit α)→Prop
  | i,j,[] => i≤j
  | i,j,e::es => i≤e.start ∧ Within e.stop j es

def between (l : List α) (j : ℕ) : ℕ→List (Edit α)→List α
  | i,[] => (l.take j).drop i
  | i,e::es => (l.take e.start).drop i++e.text++between l j e.stop es

def rewrite (l : List α) (es : List (Edit α)) : List α := between l l.length 0 es

@[simp] theorem rewrite_nil (l : List α) : rewrite l []=l := by simp [rewrite,between]

theorem Within.mono {k : ℕ} (h : Within i j es) (hk : j≤k) : Within i k es := by
  induction es generalizing i with
  | nil => exact Nat.le_trans h hk
  | cons e es ih => exact ⟨h.1,ih h.2⟩

theorem Within.concat {e : Edit α} (h : Within i j es)
    (he : j≤e.start) : Within i e.stop (es++[e]) := by
  induction es generalizing i with
  | nil => exact ⟨Nat.le_trans h he,Nat.le_refl _⟩
  | cons d es ih => exact ⟨h.1,ih h.2⟩

theorem between_extend {l : List α} {k : ℕ} (h : Within i j es) (hj : j≤k) (hk : k≤l.length) :
    between l k i es=between l j i es++(l.take k).drop j := by
  induction es generalizing i with
  | nil =>
    have hsplit : l.take k=l.take j++(l.take k).drop j := by
      conv_lhs => rw [←take_append_drop j (l.take k),take_take,Nat.min_eq_left hj]
    rw [between,between,←drop_append_of_le_length (by
      rw [length_take]
      exact Nat.le_min.mpr ⟨h,Nat.le_trans h (Nat.le_trans hj hk)⟩),←hsplit]
  | cons e es ih => rw [between,between,ih h.2,append_assoc _ _ (drop j _)]

theorem between_concat {l : List α} (e : Edit α) :
    between l e.stop i (es++[e])=between l e.start i es++e.text := by
  induction es generalizing i with
  | nil => simp [between]
  | cons d es ih => simp [between,ih]

end

end Coreutils.Rewrites
