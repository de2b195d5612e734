import Mathlib.Data.List.Basic
import Mathlib.Data.List.TakeWhile

/-!
# Selecting by position

The items of a list whose positions, counted from one, lie in some ranges. Ranges that follow each
other without touching select with one slice each.
-/

namespace Coreutils.Selections
open List

structure Range where
  lo : ℕ
  hi : ℕ
  deriving DecidableEq,Repr

def Covers (ps : List Range) (i : ℕ) : Prop := ∃p∈ps,p.lo ≤ i ∧ i≤p.hi

instance (ps : List Range) : DecidablePred (Covers ps) := fun i =>
  inferInstanceAs (Decidable (∃p∈ps,p.lo ≤ i ∧ i≤p.hi))

@[simp] theorem not_covers_nil (i : ℕ) : ¬Covers [] i := by simp [Covers]

variable {i : ℕ}

@[simp] theorem covers_cons {p : Range} {ps : List Range} :
    Covers (p::ps) i ↔ (p.lo ≤ i ∧ i≤p.hi) ∨ Covers ps i := by simp [Covers]

@[simp] theorem covers_append {ps qs : List Range} :
    Covers (ps++qs) i ↔ Covers ps i ∨ Covers qs i := by simp [Covers,or_and_right,exists_or]

section
variable {α : Type*}

/-- The items at selected positions, in order; the first item has the given position. -/
def selectFrom (S : ℕ→Prop) [DecidablePred S] : ℕ→List α→List α
  | _,[] => []
  | k,a::l => if S k then a::selectFrom S (k+1) l else selectFrom S (k+1) l

variable {S T : ℕ→Prop} [DecidablePred S] [DecidablePred T] {k : ℕ} {l : List α} {ps : List Range}

theorem selectFrom_append (k : ℕ) (l m : List α) :
    selectFrom S k (l++m)=selectFrom S k l++selectFrom S (k+l.length) m := by
  induction l generalizing k with
  | nil => simp [selectFrom]
  | cons a l ih =>
    rw [cons_append,selectFrom,selectFrom,ih,Nat.add_assoc,Nat.add_comm 1]
    split <;> simp

theorem selectFrom_congr (h : ∀i,k ≤ i→i<k+l.length→(S i ↔ T i)) :
    selectFrom S k l=selectFrom T k l := by
  induction l generalizing k with
  | nil => rfl
  | cons a l ih =>
    simp only [length_cons] at h
    rw [selectFrom,selectFrom,ih fun i hi hlt => h i (by omega) (by omega)]
    simp [h k le_rfl (by omega)]

theorem selectFrom_none (h : ∀i,k ≤ i→i<k+l.length→¬S i) : selectFrom S k l=[] := by
  induction l generalizing k with
  | nil => rfl
  | cons a l ih =>
    simp only [length_cons] at h
    rw [selectFrom,if_neg (h k le_rfl (by omega)),ih fun i hi hlt => h i (by omega) (by omega)]

theorem selectFrom_all (h : ∀i,k ≤ i→i<k+l.length→S i) : selectFrom S k l=l := by
  induction l generalizing k with
  | nil => rfl
  | cons a l ih =>
    simp only [length_cons] at h
    rw [selectFrom,if_pos (h k le_rfl (by omega)),ih fun i hi hlt => h i (by omega) (by omega)]

/-- The slices of the ranges, up to the first range that starts after the end. -/
def slices (l : List α) (ps : List Range) : List (List α) :=
  (ps.takeWhile (·.lo≤l.length)).map fun p =>
    (l.drop (p.lo-1)).take (min p.hi l.length-(p.lo-1))

theorem slices_cons (l : List α) (p : Range) (ps : List Range) : slices l (p::ps) =
      if p.lo≤l.length then (l.drop (p.lo-1)).take (min p.hi l.length-(p.lo-1))::slices l ps
      else [] := by
  unfold slices
  rw [takeWhile_cons]
  split <;> rename_i h
  · rw [if_pos (by simpa using h)]
    rfl
  · rw [if_neg (by simpa using h)]
    rfl

theorem slices_append_of_le (h : ∀p∈ps,p.lo≤l.length) (qs : List Range) :
    slices l (ps++qs)=slices l ps++slices l qs := by
  have hall : ps.takeWhile (·.lo≤l.length)=ps := takeWhile_eq_self_iff.mpr (by simpa using h)
  unfold slices
  rw [takeWhile_append_of_pos (by simpa using h),map_append,hall]

theorem slices_append_of_nil {qs : List Range} (h : slices l qs=[]) (ps : List Range) :
    slices l (ps++qs)=slices l ps := by
  induction ps with
  | nil => exact h
  | cons p ps ih => rw [cons_append,slices_cons,slices_cons,ih]

/-- The ranges follow each other without a common position, from the given one on. -/
structure Separated (k : ℕ) (ps : List Range) : Prop where
  start : ∀p∈ps,k≤p.lo ∧ p.lo≤p.hi
  apart : ps.Pairwise fun p q => p.hi<q.lo

theorem Separated.tail {p : Range} (h : Separated k (p::ps)) : Separated (p.hi+1) ps where
  start q hq := ⟨rel_of_pairwise_cons h.apart hq,(h.start q (mem_cons_of_mem p hq)).2⟩
  apart := h.apart.of_cons

theorem Separated.not_covers (h : Separated k ps) (hi : i<k) : ¬Covers ps i := by
  rintro ⟨p,hp,hlo,-⟩
  have := (h.start p hp).1
  omega

theorem drop_split (l : List α) {a b : ℕ} (h : a≤b) : l.drop a=(l.drop a).take (b-a)++l.drop b := by
  have := take_append_drop (b-a) (l.drop a)
  rw [drop_drop,Nat.add_sub_cancel' h] at this
  exact this.symm

theorem flatten_slices_from (h : Separated k ps) (hk : 0<k) :
    (slices l ps).flatten=selectFrom (Covers ps) k (l.drop (k-1)) := by
  induction ps generalizing k with
  | nil => simp [slices,selectFrom_none]
  | cons p ps ih =>
    obtain ⟨hlo,hhi⟩ := h.start p mem_cons_self
    have hbefore : ∀i,i<p.lo→¬Covers (p::ps) i := by
      intro i hi
      rw [covers_cons,not_or]
      exact ⟨by omega,h.tail.not_covers (by omega)⟩
    rw [slices_cons]
    split
    · have hlen₁ : ((l.drop (k-1)).take (p.lo-1-(k-1))).length=p.lo-k := by
        rw [length_take,length_drop]
        omega
      have hlen₂ : ((l.drop (p.lo-1)).take (min p.hi l.length-(p.lo-1))).length =
          min p.hi l.length-(p.lo-1) := by
        rw [length_take,length_drop]
        omega
      -- the positions before the range, in it, and after it
      have hsplit : l.drop (k-1)=(l.drop (k-1)).take (p.lo-1-(k-1)) ++
          ((l.drop (p.lo-1)).take (min p.hi l.length-(p.lo-1)) ++
            l.drop (min p.hi l.length)) := by
        rw [←drop_split l (by omega : p.lo-1 ≤ min p.hi l.length)]
        exact drop_split l (by omega)
      rw [hsplit,selectFrom_append,selectFrom_append,selectFrom_none,selectFrom_all,
        nil_append,flatten_cons,ih h.tail (by omega),hlen₁,hlen₂]
      · congr 1
        rcases lt_or_ge l.length p.hi with hend | hend
        · rw [drop_of_length_le (by omega),drop_of_length_le (by omega)]
          rfl
        · rw [Nat.min_eq_left hend,Nat.add_sub_cancel,
            (by omega : k+(p.lo-k)+(p.hi-(p.lo-1))=p.hi+1)]
          refine selectFrom_congr fun i hi _ => ?_
          rw [covers_cons,or_iff_right (by omega)]
      · intro i hi hlt
        rw [covers_cons]
        omega
      · intro i hi hlt
        exact hbefore i (by omega)
    · rw [selectFrom_none,flatten_nil]
      intro i hi hlen
      rw [length_drop] at hlen
      exact hbefore i (by omega)

/-- Separated ranges select each position once. -/
theorem flatten_slices (h : Separated 1 ps) : (slices l ps).flatten=selectFrom (Covers ps) 1 l :=
  flatten_slices_from h Nat.one_pos

end

end Coreutils.Selections
