import Mathlib.Data.Finset.Sort

/-!
# The join of two tables

Rows of two tables are joined by their keys, in the order of the keys. When the rows of the least
key come first in both tables, the join starts with what they give and goes on with the rest; so
sorted tables are joined from front to back.
-/

namespace Coreutils.MergeJoin
open List

variable {α β γ K : Type*} [LinearOrder K]

/-- What is written for a pair of rows, and for a row of either table without a partner. -/
structure Output (α β γ : Type*) where
  pair : α→β→List γ
  left : α→List γ
  right : β→List γ

def rowsOf (key : α→K) (k : K) (rows : List α) : List α := rows.filter (key ·=k)

def Output.block (out : Output α β γ) (g : List α) (h : List β) : List γ :=
  if g=[] ∨ h=[] then g.flatMap out.left++h.flatMap out.right
  else g.flatMap fun a => h.flatMap (out.pair a)

section
variable (out : Output α β γ) (key₁ : α→K) (key₂ : β→K)

def keys (l : List α) (r : List β) : List K := (l.map key₁++r.map key₂).toFinset.sort

def join (l : List α) (r : List β) : List γ :=
  (keys key₁ key₂ l r).flatMap fun k => out.block (rowsOf key₁ k l) (rowsOf key₂ k r)

end

variable {out : Output α β γ} {key₁ key : α→K} {key₂ : β→K} {l : List α} {k : K}

theorem mem_keys {r : List β} : k∈keys key₁ key₂ l r ↔ (∃a∈l,key₁ a=k) ∨ ∃b∈r,key₂ b=k := by
  simp [keys]

@[simp] theorem join_nil_nil : join out key₁ key₂ [] []=[] := by simp [join,keys]

theorem rowsOf_append_of_ne {g : List α} (hg : ∀a∈g,key a≠k) :
    rowsOf key k (g++l)=rowsOf key k l := by
  rw [rowsOf,filter_append,filter_eq_nil_iff.mpr (by simpa using hg)]
  rfl

theorem rowsOf_append_of_eq {g : List α} (hg : ∀a∈g,key a=k)
    (hl : ∀a∈l,key a≠k) : rowsOf key k (g++l)=g := by
  rw [rowsOf,filter_append,filter_eq_self.mpr (by simpa using hg),
    filter_eq_nil_iff.mpr (by simpa using hl),append_nil]

/-- In a sorted table the rows after those of the least key have greater keys. -/
theorem lt_of_mem_dropWhile {p : α→Bool}
    (hp : ∀a,p a ↔ key a=k) (hsorted : l.Pairwise fun a b => key a≤key b)
    (hk : ∀a∈l,k≤key a) : ∀a∈l.dropWhile p,k<key a := by
  induction l with
  | nil => simp
  | cons a l ih =>
    obtain ⟨ha,hl⟩ := pairwise_cons.mp hsorted
    by_cases heq : key a=k
    · rw [dropWhile_cons_of_pos ((hp a).mpr heq)]
      exact ih hl fun b hb => hk b (mem_cons_of_mem a hb)
    · have hlt : k<key a := lt_of_le_of_ne (hk a mem_cons_self) (Ne.symm heq)
      rw [dropWhile_cons_of_neg (mt (hp a).mp heq)]
      exact forall_mem_cons.mpr ⟨hlt,fun b hb => hlt.trans_le (ha b hb)⟩

section
variable {g : List α} {h r : List β} (hg : ∀a∈g,key₁ a=k) (hh : ∀b∈h,key₂ b=k)
  (hl : ∀a∈l,k<key₁ a) (hr : ∀b∈r,k<key₂ b)
include hg hh hl hr

theorem keys_append (hne : g≠[] ∨ h≠[]) : keys key₁ key₂ (g++l) (h++r)=k::keys key₁ key₂ l r := by
  have hlt : ∀x∈keys key₁ key₂ l r,k<x := by
    intro x hx
    rcases mem_keys.mp hx with ⟨a,ha,rfl⟩ | ⟨b,hb,rfl⟩
    · exact hl a ha
    · exact hr b hb
  have hsorted : (k::keys key₁ key₂ l r).SortedLT :=
    (pairwise_cons.mpr ⟨hlt,(Finset.sortedLT_sort _).pairwise⟩).sortedLT
  refine (Finset.sortedLT_sort _).eq_of_mem_iff hsorted fun x => ?_
  have hx : x∈keys key₁ key₂ (g++l) (h++r) ↔ x∈k::keys key₁ key₂ l r := by
    rw [mem_cons,mem_keys,mem_keys]
    constructor
    · rintro (⟨a,ha,rfl⟩ | ⟨b,hb,rfl⟩)
      · rcases mem_append.mp ha with ha | ha
        · exact .inl (hg a ha)
        · exact .inr (.inl ⟨a,ha,rfl⟩)
      · rcases mem_append.mp hb with hb | hb
        · exact .inl (hh b hb)
        · exact .inr (.inr ⟨b,hb,rfl⟩)
    · rintro (rfl | ⟨a,ha,rfl⟩ | ⟨b,hb,rfl⟩)
      · rcases hne with hne | hne
        · obtain ⟨a,ha⟩ := exists_mem_of_ne_nil g hne
          exact .inl ⟨a,mem_append_left l ha,hg a ha⟩
        · obtain ⟨b,hb⟩ := exists_mem_of_ne_nil h hne
          exact .inr ⟨b,mem_append_left r hb,hh b hb⟩
      · exact .inl ⟨a,mem_append_right g ha,rfl⟩
      · exact .inr ⟨b,mem_append_right h hb,rfl⟩
  exact hx

/-- The rows of the least key first, then the others. -/
theorem join_append (hne : g≠[] ∨ h≠[]) :
    join out key₁ key₂ (g++l) (h++r)=out.block g h++join out key₁ key₂ l r := by
  have hblock : out.block (rowsOf key₁ k (g++l)) (rowsOf key₂ k (h++r))=out.block g h := by
    rw [rowsOf_append_of_eq hg fun a ha => (hl a ha).ne',
      rowsOf_append_of_eq hh fun b hb => (hr b hb).ne']
  rw [join,keys_append hg hh hl hr hne,flatMap_cons]
  congr 1
  refine flatMap_congr fun x hx => ?_
  have hlt : k<x := by
    rcases mem_keys.mp hx with ⟨a,ha,rfl⟩ | ⟨b,hb,rfl⟩
    · exact hl a ha
    · exact hr b hb
  rw [rowsOf_append_of_ne fun a ha => by rw [hg a ha]; exact hlt.ne,
    rowsOf_append_of_ne fun b hb => by rw [hh b hb]; exact hlt.ne]

end

end Coreutils.MergeJoin
