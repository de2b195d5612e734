import Mathlib.Data.List.Basic
import Mathlib.Tactic.Linarith

/-!
# The insertion and deletion distance of two lists

A script turns one list into another by keeping, deleting and inserting elements; its cost counts
the deletions and insertions, and `dist` is the least cost. The distance splits at every cut point,
never decreases along a diagonal of the edit grid, and changes by at most one with a step along an
axis.
-/

namespace Coreutils.EditDistance
open List

variable {α : Type*} {a b : List α} {c : ℕ}

/-- `Script a b c`: some script of cost `c` turns `a` into `b`. -/
inductive Script : List α→List α→ℕ→Prop
  | nil : Script [] [] 0
  | keep (x : α) {a b : List α} {c : ℕ} (h : Script a b c) : Script (x::a) (x::b) c
  | delete (x : α) {a b : List α} {c : ℕ} (h : Script a b c) : Script (x::a) b (c+1)
  | insert (y : α) {a b : List α} {c : ℕ} (h : Script a b c) : Script a (y::b) (c+1)

theorem Script.append {a' b' : List α} {c' : ℕ} (h : Script a b c) (h' : Script a' b' c') :
    Script (a++a') (b++b') (c+c') := by
  induction h with
  | nil => simpa using h'
  | keep x h ih => exact .keep x ih
  | delete x h ih => rw [add_right_comm]; exact .delete x ih
  | insert y h ih => rw [add_right_comm]; exact .insert y ih

theorem Script.reverse (h : Script a b c) : Script a.reverse b.reverse c := by
  induction h with
  | nil => exact .nil
  | keep x h ih => simpa using ih.append (.keep x .nil)
  | delete x h ih => simpa using ih.append (.delete x .nil)
  | insert y h ih => simpa using ih.append (.insert y .nil)

theorem script_nil_left (b : List α) : Script [] b b.length := by
  induction b with
  | nil => exact .nil
  | cons y b ih => exact .insert y ih

theorem script_nil_right (a : List α) : Script a [] a.length := by
  induction a with
  | nil => exact .nil
  | cons x a ih => exact .delete x ih

/-- The lengths of the two lists differ by at most the cost, and by the same parity. -/
theorem Script.length_bounds (h : Script a b c) : a.length≤b.length+c ∧ b.length≤a.length+c ∧
      (a.length+b.length)%2=c%2 := by
  induction h with
  | nil => simp
  | keep | delete | insert => simp only [length_cons]; omega

structure LongestCommon (s a b : List α) : Prop where
  left : s.Sublist a
  right : s.Sublist b
  longest : ∀t : List α,t.Sublist a→t.Sublist b→t.length ≤ s.length

/-- What a script keeps is a common subsequence, and the rest of both lists is its cost. -/
theorem Script.kept (h : Script a b c) :
    ∃s : List α,s.Sublist a ∧ s.Sublist b ∧ c+2*s.length=a.length+b.length := by
  induction h with
  | nil => exact ⟨[],.slnil,.slnil,rfl⟩
  | keep x h ih =>
    obtain ⟨s,ha,hb,hc⟩ := ih
    refine ⟨x::s,ha.cons_cons x,hb.cons_cons x,?_⟩
    simp only [length_cons]
    omega
  | delete x h ih =>
    obtain ⟨s,ha,hb,hc⟩ := ih
    refine ⟨s,ha.cons x,hb,?_⟩
    simp only [length_cons]
    omega
  | insert y h ih =>
    obtain ⟨s,ha,hb,hc⟩ := ih
    refine ⟨s,ha,hb.cons y,?_⟩
    simp only [length_cons]
    omega

theorem script_of_sublist {s : List α} (h : s.Sublist b) :
    ∃c,Script s b c ∧ c+s.length=b.length := by
  induction h with
  | slnil => exact ⟨0,.nil,rfl⟩
  | cons y h ih =>
    obtain ⟨c,hs,hc⟩ := ih
    exact ⟨c+1,.insert y hs,by simp only [length_cons]; omega⟩
  | cons_cons x h ih =>
    obtain ⟨c,hs,hc⟩ := ih
    exact ⟨c,.keep x hs,by simp only [length_cons]; omega⟩

/-- Some script keeps a given common subsequence. -/
theorem script_of_common {s : List α} (ha : s.Sublist a) (hb : s.Sublist b) :
    ∃c,Script a b c ∧ c+2*s.length=a.length+b.length := by
  induction ha generalizing b with
  | slnil =>
    obtain ⟨c,hs,hc⟩ := script_of_sublist hb
    exact ⟨c,hs,by simp only [length_nil] at hc ⊢; omega⟩
  | cons x h ih =>
    obtain ⟨c,hs,hc⟩ := ih hb
    exact ⟨c+1,.delete x hs,by simp only [length_cons]; omega⟩
  | @cons_cons s a x h ih =>
    -- the first line kept stands after some lines that only `b` has
    generalize hxs : x::s=t at hb
    induction hb with
    | slnil => cases hxs
    | cons y hb ihb =>
      obtain ⟨c,hs,hc⟩ := ihb hxs
      exact ⟨c+1,.insert y hs,by simp only [length_cons] at hc ⊢; omega⟩
    | cons_cons y hb ihb =>
      cases hxs
      obtain ⟨c,hs,hc⟩ := ih hb
      exact ⟨c,.keep x hs,by simp only [length_cons]; omega⟩

section

variable [DecidableEq α]

def dist : List α→List α→ℕ
  | [],b => b.length
  | a,[] => a.length
  | x::a,y::b =>
      if x=y then dist a b else min (dist a (y::b)) (dist (x::a) b)+1
termination_by a b => a.length+b.length

@[simp] theorem dist_nil_left (b : List α) : dist [] b=b.length := by rw [dist]

@[simp] theorem dist_nil_right (a : List α) : dist a []=a.length := by
  cases a with
  | nil => simp
  | cons x a => rw [dist]; simp

@[simp] theorem dist_cons_self (x : α) (a b : List α) : dist (x::a) (x::b)=dist a b := by
  rw [dist]; simp

theorem dist_cons_ne {x y : α} (h : x≠y) (a b : List α) :
    dist (x::a) (y::b)=min (dist a (y::b)) (dist (x::a) b)+1 := by
  rw [dist]; simp [h]

/-- Dropping the head of either list changes the distance by at most one. -/
private theorem dist_step (n : ℕ) : ∀(x : α) (a b : List α),a.length+b.length=n→
    dist a b≤dist (x::a) b+1 ∧ dist (x::a) b≤dist a b+1 ∧
    dist a b≤dist a (x::b)+1 ∧ dist a (x::b)≤dist a b+1 := by
  induction n using Nat.strongRecOn with
  | ind n ih =>
    intro x a b hn
    have left : dist a b≤dist (x::a) b+1 ∧ dist (x::a) b≤dist a b+1 := by
      cases b with
      | nil => simp; omega
      | cons y b =>
        have hb := ih (a.length+b.length) (by simp at hn; omega) y a b rfl
        by_cases h : x=y
        · subst h; simp only [dist_cons_self]; omega
        · have hx := ih (a.length+b.length) (by simp at hn; omega) x a b rfl
          rw [dist_cons_ne h]; omega
    have right : dist a b≤dist a (x::b)+1 ∧ dist a (x::b)≤dist a b+1 := by
      cases a with
      | nil => simp; omega
      | cons y a =>
        have ha := ih (a.length+b.length) (by simp at hn; omega) y a b rfl
        by_cases h : y=x
        · subst h; simp only [dist_cons_self]; omega
        · have hx := ih (a.length+b.length) (by simp at hn; omega) x a b rfl
          rw [dist_cons_ne h]; omega
    exact ⟨left.1,left.2,right.1,right.2⟩

theorem dist_cons_left_le (x : α) (a b : List α) : dist (x::a) b≤dist a b+1 :=
  (dist_step _ x a b rfl).2.1

theorem dist_cons_right_le (y : α) (a b : List α) : dist a (y::b)≤dist a b+1 :=
  (dist_step _ y a b rfl).2.2.2

theorem dist_le_cons_left (x : α) (a b : List α) : dist a b≤dist (x::a) b+1 :=
  (dist_step _ x a b rfl).1

theorem dist_le_cons_right (y : α) (a b : List α) : dist a b≤dist a (y::b)+1 :=
  (dist_step _ y a b rfl).2.2.1

/-- The distance never decreases along a diagonal of the edit grid. -/
theorem dist_le_cons_cons (x y : α) (a b : List α) : dist a b≤dist (x::a) (y::b) := by
  by_cases h : x=y
  · subst h; simp
  · have hl := dist_le_cons_right y a b
    have hr := dist_le_cons_left x a b
    rw [dist_cons_ne h]; omega

/-- The three ways a cheapest script can begin. -/
theorem dist_cons_cases (x y : α) (a b : List α) : (x=y ∧ dist (x::a) (y::b)=dist a b) ∨
      dist (x::a) (y::b)=dist a (y::b)+1 ∨ dist (x::a) (y::b)=dist (x::a) b+1 := by
  by_cases h : x=y
  · subst h; simp
  · rw [dist_cons_ne h]; omega

theorem script_dist (a b : List α) : Script a b (dist a b) := by
  fun_induction dist a b with
  | case1 b => exact script_nil_left b
  | case2 a _ => exact script_nil_right a
  | case3 a y b ih => exact .keep y ih
  | case4 x a y b h ih₁ ih₂ =>
    rcases le_total (dist a (y::b)) (dist (x::a) b) with hle | hle
    · rw [min_eq_left hle]; exact .delete x ih₁
    · rw [min_eq_right hle]; exact .insert y ih₂

theorem Script.dist_le {a b : List α} {c : ℕ} (h : Script a b c) : dist a b≤c := by
  induction h with
  | nil => simp
  | keep x h ih => simpa using ih
  | @delete x a b c h ih => exact (dist_cons_left_le x a b).trans (by omega)
  | @insert y a b c h ih => exact (dist_cons_right_le y a b).trans (by omega)

/-- The distance of two lists is what a longest common subsequence leaves of them. -/
theorem dist_longestCommon (a b : List α) :
    ∃s,LongestCommon s a b ∧ dist a b+2*s.length=a.length+b.length := by
  obtain ⟨s,ha,hb,hc⟩ := (script_dist a b).kept
  refine ⟨s,⟨ha,hb,fun t hta htb => ?_⟩,hc⟩
  obtain ⟨c,hs,hct⟩ := script_of_common hta htb
  have hle := hs.dist_le
  omega

theorem dist_append_le (a b a' b' : List α) : dist (a++a') (b++b')≤dist a b+dist a' b' :=
  ((script_dist a b).append (script_dist a' b')).dist_le

theorem dist_reverse (a b : List α) : dist a.reverse b.reverse=dist a b := by
  apply le_antisymm (script_dist a b).reverse.dist_le
  simpa using (script_dist a.reverse b.reverse).reverse.dist_le

theorem dist_parity (a b : List α) : (a.length+b.length)%2=dist a b%2 :=
  (script_dist a b).length_bounds.2.2

theorem length_le_add_dist (a b : List α) : a.length≤b.length+dist a b :=
  (script_dist a b).length_bounds.1

theorem length_le_add_dist' (a b : List α) : b.length≤a.length+dist a b :=
  (script_dist a b).length_bounds.2.1

theorem dist_le_length_add (a b : List α) : dist a b≤a.length+b.length := by
  simpa using dist_append_le a [] [] b

theorem dist_concat_self (x : α) (a b : List α) : dist (a++[x]) (b++[x])=dist a b := by
  rw [←dist_reverse,←dist_reverse a b]; simp

theorem dist_concat_left_le (x : α) (a b : List α) : dist (a++[x]) b≤dist a b+1 := by
  simpa using dist_append_le a b [x] []

theorem dist_concat_right_le (y : α) (a b : List α) : dist a (b++[y])≤dist a b+1 := by
  simpa using dist_append_le a b [] [y]

/-- The three ways a cheapest script can end. -/
theorem dist_concat_cases (x y : α) (a b : List α) : (x=y ∧ dist (a++[x]) (b++[y])=dist a b) ∨
      dist (a++[x]) (b++[y])=dist a (b++[y])+1 ∨ dist (a++[x]) (b++[y])=dist (a++[x]) b+1 := by
  have h := dist_cons_cases x y a.reverse b.reverse
  rw [←dist_reverse (a++[x]) (b++[y]),←dist_reverse a b,←dist_reverse a (b++[y]),
    ← dist_reverse (a++[x]) b]
  simpa using h

/-! ## The edit grid

The point `(x, y)` cuts `a` after `x` elements and `b` after `y` elements. -/

def before (a b : List α) (x y : ℕ) : ℕ := dist (a.take x) (b.take y)

def after (a b : List α) (x y : ℕ) : ℕ := dist (a.drop x) (b.drop y)

variable (a b : List α) {x y : ℕ}

@[simp] theorem before_zero : before a b 0 0=0 := by simp [before]

theorem before_zero_left : before a b 0 y=min y b.length := by simp [before]

theorem before_zero_right : before a b x 0=min x a.length := by simp [before]

@[simp] theorem before_length : before a b a.length b.length=dist a b := by simp [before]

theorem dist_le_before_add_after (x y : ℕ) : dist a b≤before a b x y+after a b x y := by
  simpa [before,after] using dist_append_le (a.take x) (b.take y) (a.drop x) (b.drop y)

theorem before_succ_left_le (hx : x<a.length) : before a b (x+1) y≤before a b x y+1 := by
  rw [before,take_succ_eq_append_getElem hx]
  exact dist_concat_left_le _ _ _

theorem before_succ_right_le (hy : y<b.length) : before a b x (y+1)≤before a b x y+1 := by
  rw [before,take_succ_eq_append_getElem hy]
  exact dist_concat_right_le _ _ _

theorem before_diagonal (hx : x<a.length) (hy : y<b.length) (h : a[x]=b[y]) :
    before a b (x+1) (y+1)=before a b x y := by
  rw [before,take_succ_eq_append_getElem hx,take_succ_eq_append_getElem hy,h]
  exact dist_concat_self _ _ _

theorem after_diagonal (hx : x<a.length) (hy : y<b.length) (h : a[x]=b[y]) :
    after a b x y=after a b (x+1) (y+1) := by
  rw [after,drop_eq_getElem_cons hx,drop_eq_getElem_cons hy,h]
  exact dist_cons_self _ _ _

theorem after_le_succ_left (hx : x<a.length) : after a b x y≤after a b (x+1) y+1 := by
  rw [after,drop_eq_getElem_cons hx]
  exact dist_cons_left_le _ _ _

theorem after_le_succ_right (hy : y<b.length) : after a b x y≤after a b x (y+1)+1 := by
  rw [after,drop_eq_getElem_cons hy]
  exact dist_cons_right_le _ _ _

theorem after_anti (t : ℕ) (hx : x+t≤a.length) (hy : y+t≤b.length) :
    after a b (x+t) (y+t)≤after a b x y := by
  induction t with
  | zero => simp
  | succ t ih =>
    refine le_trans ?_ (ih (by omega) (by omega))
    simp only [after]
    rw [drop_eq_getElem_cons (by omega : x+t<a.length),
      drop_eq_getElem_cons (by omega : y+t<b.length)]
    exact dist_le_cons_cons _ _ _ _

/-- Reading both lists backwards exchanges the two corners of the grid. -/
theorem before_reverse (x y : ℕ) :
    before a.reverse b.reverse x y=after a b (a.length-x) (b.length-y) := by
  rw [before,after,take_reverse,take_reverse,dist_reverse]

/-- Reaching `(x, y)` and leaving it costs no more than the whole distance. -/
structure OnPath (a b : List α) (x y : ℕ) : Prop where
  left : x≤a.length
  right : y≤b.length
  cost : before a b x y+after a b x y=dist a b

section
variable (h : OnPath a b x y)
include h

theorem OnPath.reverse : OnPath a.reverse b.reverse (a.length-x) (b.length-y) := by
  obtain ⟨hx,hy,hc⟩ := h
  have hb : before a.reverse b.reverse (a.length-x) (b.length-y)=after a b x y := by
    rw [before_reverse a b]
    congr 1 <;> omega
  have ha : after a.reverse b.reverse (a.length-x) (b.length-y)=before a b x y := by
    rw [after,drop_reverse,drop_reverse,dist_reverse]
    congr 2 <;> omega
  exact ⟨by simp,by simp,by rw [dist_reverse]; omega⟩

/-- A cheapest path leaves a corner's diagonal no further than the edits spent or left. -/
theorem OnPath.diagonal :
    x≤y+before a b x y ∧ y≤x+before a b x y ∧ a.length+y≤b.length+x+after a b x y ∧
      b.length+x≤a.length+y+after a b x y := by
  have h₁ := length_le_add_dist (a.take x) (b.take y)
  have h₂ := length_le_add_dist' (a.take x) (b.take y)
  have h₃ := length_le_add_dist (a.drop x) (b.drop y)
  have h₄ := length_le_add_dist' (a.drop x) (b.drop y)
  have hx := h.left
  have hy := h.right
  simp only [length_take,length_drop] at h₁ h₂ h₃ h₄
  simp only [before,after]
  omega

/-- A point of a cheapest path other than the origin has a predecessor on a cheapest path. -/
theorem OnPath.pred : (x=0 ∧ y=0) ∨
      (∃x' y',x=x'+1 ∧ y=y'+1 ∧ a[x']?=b[y']? ∧ x'<a.length ∧ y'<b.length ∧
        OnPath a b x' y' ∧ before a b x y=before a b x' y') ∨
      (∃x',x=x'+1 ∧ OnPath a b x' y ∧ before a b x y=before a b x' y+1) ∨
      (∃y',y=y'+1 ∧ OnPath a b x y' ∧ before a b x y=before a b x y'+1) := by
  obtain ⟨hx,hy,hc⟩ := h
  have fromLeft : ∀x',x=x'+1 → before a b x y=before a b x' y+1→OnPath a b x' y := by
    rintro x' rfl he
    have h₁ := after_le_succ_left a b (y := y) (by omega : x'<a.length)
    have h₂ := dist_le_before_add_after a b x' y
    exact ⟨by omega,hy,by omega⟩
  have fromRight : ∀y',y=y'+1 → before a b x y=before a b x y'+1→OnPath a b x y' := by
    rintro y' rfl he
    have h₁ := after_le_succ_right a b (x := x) (by omega : y'<b.length)
    have h₂ := dist_le_before_add_after a b x y'
    exact ⟨hx,by omega,by omega⟩
  cases x with
  | zero =>
    cases y with
    | zero => simp
    | succ y' =>
      have he : before a b 0 (y'+1)=before a b 0 y'+1 := by simp only [before_zero_left]; omega
      exact .inr (.inr (.inr ⟨y',rfl,fromRight y' rfl he,he⟩))
  | succ x' =>
    cases y with
    | zero =>
      have he : before a b (x'+1) 0=before a b x' 0+1 := by simp only [before_zero_right]; omega
      exact .inr (.inr (.inl ⟨x',rfl,fromLeft x' rfl he,he⟩))
    | succ y' =>
      have hx' : x'<a.length := by omega
      have hy' : y'<b.length := by omega
      have hcases := dist_concat_cases a[x'] b[y'] (a.take x') (b.take y')
      rw [←take_succ_eq_append_getElem hx',←take_succ_eq_append_getElem hy'] at hcases
      rcases hcases with ⟨hh,he⟩ | he | he
      · have h₁ := after_diagonal a b hx' hy' hh
        have he' : before a b (x'+1) (y'+1)=before a b x' y' := he
        refine .inr (.inl ⟨x',y',rfl,rfl,?_,hx',hy',⟨by omega,by omega,by omega⟩,he'⟩)
        simp [hx',hh]
      · exact .inr (.inr (.inl ⟨x',rfl,fromLeft x' rfl he,he⟩))
      · exact .inr (.inr (.inr ⟨y',rfl,fromRight y' rfl he,he⟩))

end

theorem onPath_end : OnPath a b a.length b.length :=
  ⟨by rfl,by rfl,by simp [after]⟩

/-- A cheapest path passes through every cost from zero to the distance. -/
theorem exists_onPath {c : ℕ} (hc : c≤dist a b) : ∃x y,OnPath a b x y ∧ before a b x y=c := by
  have down : ∀n x y,x+y=n→OnPath a b x y→c≤before a b x y→
      ∃x y,OnPath a b x y ∧ before a b x y=c := by
    intro n
    induction n using Nat.strongRecOn with
    | ind n ih =>
      intro x y hn h hle
      rcases h.pred with ⟨rfl,rfl⟩ | ⟨x',y',rfl,rfl,-,-,-,hp,he⟩ |
          ⟨x',rfl,hp,he⟩ | ⟨y',rfl,hp,he⟩
      · exact ⟨0,0,h,by simp at hle ⊢; omega⟩
      · exact ih (x'+y') (by omega) x' y' rfl hp (by omega)
      · by_cases hc' : c=before a b (x'+1) y
        · exact ⟨x'+1,y,h,hc'.symm⟩
        · exact ih (x'+y) (by omega) x' y rfl hp (by omega)
      · by_cases hc' : c=before a b x (y'+1)
        · exact ⟨x,y'+1,h,hc'.symm⟩
        · exact ih (x+y') (by omega) x y' rfl hp (by omega)
  exact down _ _ _ rfl (onPath_end a b) (by simpa using hc)

end

end Coreutils.EditDistance
