import Mathlib.Data.List.Lex
import Mathlib.Data.List.Sort
import Mathlib.Data.Prod.Lex
import Mathlib.Tactic.Linarith

/-!
# Three-way comparators

A comparator returns a negative number, zero or a positive one. It is ranked when it compares values
in a linear order; ranked comparators are closed under negation and breaking ties, and are total
preorders.
-/

namespace Coreutils.Comparators

variable {α β : Type*} [LinearOrder α] [LinearOrder β] {x y : α}

def order (x y : α) : ℤ := if x<y then -1 else if y<x then 1 else 0

def orElse (c d : ℤ) : ℤ := if c≠0 then c else d

theorem order_of_lt (h : x<y) : order x y = -1 := if_pos h

theorem order_of_gt (h : y<x) : order x y=1 := by rw [order,if_neg h.asymm,if_pos h]

@[simp] theorem order_self (x : α) : order x x=0 := by simp [order]

theorem order_eq_zero : order x y=0 ↔ x=y := by
  rcases lt_trichotomy x y with h | rfl | h
  · simp [order_of_lt h,h.ne]
  · simp
  · simp [order_of_gt h,h.ne']

theorem order_nonpos : order x y≤0 ↔ x≤y := by
  rcases lt_trichotomy x y with h | rfl | h
  · simp [order_of_lt h,h.le]
  · simp
  · simp [order_of_gt h,h]

theorem neg_order (x y : α) : -order x y=order y x := by
  rcases lt_trichotomy x y with h | rfl | h
  · rw [order_of_lt h,order_of_gt h]
    rfl
  · simp
  · rw [order_of_lt h,order_of_gt h]

theorem sign_order (x y : α) : (order x y).sign=order x y := by
  unfold order
  split_ifs <;> rfl

theorem order_strictMono {f : α→β} (hf : StrictMono f) (x y : α) : order (f x) (f y)=order x y := by
  simp [order,hf.lt_iff_lt]

theorem order_toDual (x y : α) : order (OrderDual.toDual x) (OrderDual.toDual y)=order y x := by
  simp [order]

@[simp] theorem orElse_zero_left (d : ℤ) : orElse 0 d=d := by simp [orElse]

/-- The chain of comparisons that the source writes. -/
theorem ite_order (r : ℤ) : (if x<y then -1 else if y<x then 1 else r)=orElse (order x y) r := by
  unfold order orElse
  split_ifs <;> simp_all

theorem orElse_assoc (a b c : ℤ) : orElse (orElse a b) c=orElse a (orElse b c) := by
  unfold orElse
  split_ifs <;> simp_all

theorem orElse_of_ne {c : ℤ} (h : c≠0) (d : ℤ) : orElse c d=c := if_pos h

theorem order_toLex (x x' : α) (y y' : β) :
    order (toLex (x,y)) (toLex (x',y'))=orElse (order x x') (order y y') := by
  rcases lt_trichotomy x x' with h | rfl | h
  · rw [order_of_lt h,order_of_lt (Prod.Lex.toLex_lt_toLex.mpr (.inl h)),orElse_of_ne (by decide)]
  · have hlt : ∀z w : β,toLex (x,z)<toLex (x,w) ↔ z<w := by
      intro z w
      simp [Prod.Lex.toLex_lt_toLex]
    simp [order,hlt]
  · rw [order_of_gt h,order_of_gt (Prod.Lex.toLex_lt_toLex.mpr (.inl h)),orElse_of_ne (by decide)]

/-- Comparing lists element by element, a shorter list first. -/
theorem order_cons (x y : α) (xs ys : List α) :
    order (x::xs) (y::ys)=orElse (order x y) (order xs ys) := by
  rcases lt_trichotomy x y with h | rfl | h
  · rw [order_of_lt h,order_of_lt (List.Lex.rel h),orElse_of_ne (by decide)]
  · rw [order_self,orElse_zero_left]
    rcases lt_trichotomy xs ys with h | rfl | h
    · rw [order_of_lt h,order_of_lt (List.Lex.cons h)]
    · rw [order_self,order_self]
    · rw [order_of_gt h,order_of_gt (List.Lex.cons h)]
  · rw [order_of_gt h,order_of_gt (List.Lex.rel h),orElse_of_ne (by decide)]

theorem order_nil_cons (y : α) (ys : List α) : order [] (y::ys) = -1 :=
  order_of_lt (List.nil_lt_cons y ys)

theorem order_cons_nil (x : α) (xs : List α) : order (x::xs) []=1 :=
  order_of_gt (List.nil_lt_cons x xs)

/-- A comparator that compares values in a linear order. -/
def Ranked {L : Type*} (c : L→L→ℤ) : Prop :=
  ∃(V : Type) (_ : LinearOrder V) (f : L→V),∀x y,(c x y).sign=order (f x) (f y)

section
variable {L : Type*} {c d : L→L→ℤ}

theorem ranked_order {V : Type} [LinearOrder V] (f : L→V) : Ranked fun x y => order (f x) (f y) :=
  ⟨V,inferInstance,f,fun x y => sign_order (f x) (f y)⟩

theorem ranked_zero : Ranked fun _ _ : L => 0 :=
  ⟨Unit,inferInstance,fun _ => (),fun _ _ => by simp⟩

theorem Ranked.neg (h : Ranked c) : Ranked fun x y => -c x y := by
  obtain ⟨V,_,f,hf⟩ := h
  refine ⟨Vᵒᵈ,inferInstance,fun x => OrderDual.toDual (f x),fun x y => ?_⟩
  rw [Int.sign_neg,hf,order_toDual,neg_order]

theorem Ranked.comp {K : Type*} (h : Ranked c) (f : K→L) : Ranked fun x y => c (f x) (f y) := by
  obtain ⟨V,_,g,hg⟩ := h
  exact ⟨V,inferInstance,fun x => g (f x),fun x y => hg (f x) (f y)⟩

theorem sign_orElse (a b : ℤ) : (orElse a b).sign=orElse a.sign b.sign := by
  unfold orElse
  by_cases h : a=0
  · simp [h]
  · rw [if_pos h,if_pos (by simpa using h)]

theorem Ranked.orElse (hc : Ranked c) (hd : Ranked d) : Ranked fun x y =>
    orElse (c x y) (d x y) := by
  obtain ⟨V,_,f,hf⟩ := hc
  obtain ⟨W,_,g,hg⟩ := hd
  refine ⟨V ×ₗ W,inferInstance,fun x => toLex (f x,g x),fun x y => ?_⟩
  rw [sign_orElse,hf,hg,order_toLex]

theorem sign_nonpos {a : ℤ} : a.sign≤0 ↔ a≤0 := by
  rcases lt_trichotomy a 0 with h | rfl | h
  · simp
  · simp
  · simp

/-- A ranked comparator is a total preorder, and changes sign with its arguments exchanged. -/
theorem Ranked.total_preorder (h : Ranked c) :
    (∀x y,(c y x).sign = -(c x y).sign) ∧ (∀x y,c x y≤0 ∨ c y x≤0) ∧
      ∀x y z,c x y≤0→c y z≤0→c x z≤0 := by
  obtain ⟨V,_,f,hf⟩ := h
  have hle : ∀x y,c x y≤0 ↔ f x≤f y := by
    intro x y
    rw [←sign_nonpos,hf,order_nonpos]
  refine ⟨fun x y => by rw [hf,hf,neg_order],fun x y => ?_,fun x y z hxy hyz => ?_⟩
  · rw [hle,hle]
    exact le_total _ _
  · rw [hle] at hxy hyz ⊢
    exact hxy.trans hyz

end

/-!
## Merging

A merge that prefers its left side agrees with sorting by insertion, which is stable: merging two
sorted lists sorts their concatenation.
-/

open List

section
variable {α : Type*} {r : α→α→Prop} [DecidableRel r]

theorem merge_singleton (x : α) (t : List α) : merge [x] t (r · ·)=t.orderedInsert r x := by
  induction t with
  | nil => simp
  | cons z t ih => by_cases h : r x z <;> simp [h,ih]

variable [IsTrans α r] [Std.Total r]

theorem orderedInsert_merge (x : α) (s t : List α) :
    (merge s t (r · ·)).orderedInsert r x=merge (s.orderedInsert r x) t (r · ·) := by
  induction s generalizing t with
  | nil => rw [nil_merge,orderedInsert_nil,merge_singleton]
  | cons y s ihs =>
    induction t with
    | nil => simp
    | cons z t iht =>
      by_cases hyz : r y z
      · by_cases hxy : r x y
        · have hxz := trans_of r hxy hyz
          simp [hyz,hxy,hxz]
        · simp [hyz,hxy,ihs]
      · by_cases hxz : r x z
        · have hxy : r x y :=
            (total_of r x y).resolve_right fun hyx => hyz (trans_of r hyx hxz)
          simp [hyz,hxy,hxz]
        · simp only [cons_merge_cons,hyz,decide_false,Bool.false_eq_true,if_false,
            orderedInsert_cons,iht]
          by_cases hxy : r x y <;> simp [hxy,hyz,hxz]

theorem merge_insertionSort (s t : List α) :
    merge (s.insertionSort r) (t.insertionSort r) (r · ·)=(s++t).insertionSort r := by
  induction s with
  | nil => simp
  | cons x s ih => rw [insertionSort_cons,←orderedInsert_merge,ih,cons_append,insertionSort_cons]

end

section
variable {α : Type*} (eq : α→α→Prop) [DecidableRel eq]

/-- The elements that equal none before them; `seen` came before. -/
def firstsAfter : List α→List α→List α
  | _,[] => []
  | seen,x::l =>
    if ∃y∈seen,eq y x then firstsAfter seen l else x::firstsAfter (x::seen) l

end

end Coreutils.Comparators
