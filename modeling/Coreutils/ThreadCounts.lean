import Mathlib.Data.List.Basic

/-!
# Counting threads

The threads of a program are numbered and each has a local state. `count n p f` is how many of the
first `n` are in a state with `p`; `count_update` says how it changes when one moves. Invariants of
semaphores and wait groups are equations between such counts and shared counters.
-/

namespace Coreutils.ThreadCounts
open Function List

variable {α : Type*} {n : ℕ} {p : α→Bool} {f : ℕ→α}

def count (n : ℕ) (p : α→Bool) (f : ℕ→α) : ℕ := (range n).countP fun k => p (f k)

theorem count_succ (n : ℕ) (p : α→Bool) (f : ℕ→α) :
    count (n+1) p f=count n p f+(p (f n)).toNat := by
  simp only [count,range_succ,countP_append,countP_singleton]
  cases p (f n) <;> rfl

theorem count_congr {g : ℕ→α} (h : ∀k<n,p (f k)=p (g k)) : count n p f=count n p g := by
  apply countP_congr
  intro k hk
  rw [h k (mem_range.mp hk)]

theorem count_update {k : ℕ} (hk : k<n) (p : α→Bool) (f : ℕ→α) (a : α) :
    count n p (update f k a)+(p (f k)).toNat=count n p f+(p a).toNat := by
  induction n with
  | zero => omega
  | succ n ih =>
    rw [count_succ,count_succ]
    by_cases hkn : k=n
    · subst hkn
      have hsame : count k p (update f k a)=count k p f := by
        apply count_congr
        intro j hj
        rw [update_of_ne (by omega)]
      rw [update_self]
      omega
    · rw [update_of_ne (fun h => hkn h.symm)]
      omega

theorem count_eq_zero : count n p f=0 ↔ ∀k<n,p (f k)=false := by simp [count]

theorem count_pos {k : ℕ} (hk : k<n) (h : p (f k)=true) : 0<count n p f :=
  countP_pos_iff.mpr ⟨k,mem_range.mpr hk,h⟩

theorem count_mono {q : α→Bool} (h : ∀a,p a=true→q a=true) : count n p f≤count n q f :=
  countP_mono_left fun k _ => h (f k)

end Coreutils.ThreadCounts
