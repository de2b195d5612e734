import Coreutils.EdAddress
import Coreutils.Programs

/-!
# The order of ed searches

A search looks at every line once, from the line beside the current one on. The code computes the
order with indices modulo the number of lines.
-/

namespace Coreutils.EdSearch
open List GoText EdEngine EdAddress Programs

/-- The order in which a search from line `d` is to look at the lines `1` to `n`. -/
def searchOrder (n d : ℕ) : Bool→List ℕ
  | true => range' (d+1) (n-d)++range' 1 d
  | false => (range' 1 (d-1)).reverse++(range' (max d 1) (n+1-max d 1)).reverse

/-- The line that `search` looks at in a step. -/
def visited (n d : ℕ) (forward : Bool) (step : ℕ) : ℤ :=
  (if forward then ((d : ℤ)+step-1)%n else ((d : ℤ)-step-1+n*2)%n)+1

section
variable {n d : ℕ}

theorem visited_eq {forward : Bool} {step k : ℕ} {q : ℤ} (h₀ : 1≤k) (h₁ : k≤n)
    (h : (if forward then (d : ℤ)+step-1 else d-step-1+n*2)=k-1+n*q) :
    visited n d forward step=k := by
  rw [visited,←apply_ite (·%(n : ℤ)),h,Int.add_mul_emod_self_left,
    Int.emod_eq_of_lt (by omega) (by omega)]
  omega

theorem visited_order {forward : Bool} (h : d≤n) (hd : forward=true ∨ d≠0) :
    (List.range' 1 n).map (visited n d forward)=(searchOrder n d forward).map Nat.cast := by
  cases forward with
  | true =>
    refine ext_getElem (by simp [searchOrder,h]) fun i hi _ => ?_
    rw [length_map,length_range'] at hi
    simp only [searchOrder,getElem_map,getElem_append,getElem_range',length_range']
    split
    · exact visited_eq (q := 0) (by omega) (by omega) (by simp; omega)
    · exact visited_eq (q := 1) (by omega) (by omega) (by simp; omega)
  | false =>
    have hpos : d≠0 := by simpa using hd
    refine ext_getElem (by simp [searchOrder]; omega) fun i hi _ => ?_
    rw [length_map,length_range'] at hi
    simp only [searchOrder,getElem_map,getElem_append,getElem_reverse,
      getElem_range',length_range',length_reverse]
    split
    · exact visited_eq (q := 2) (by omega) (by omega) (by simp; omega)
    · exact visited_eq (q := 1) (by omega) (by omega) (by simp; omega)

/-- Backward from line zero the last line comes last, and not first. -/
theorem visited_backward_zero : (range' 1 (n+1)).map (visited (n+1) 0 false) =
    ((List.range' 1 n).reverse++[n+1]).map Nat.cast := by
  refine ext_getElem (by simp) fun i hi _ => ?_
  rw [length_map,length_range'] at hi
  simp only [getElem_map,getElem_append,getElem_reverse,getElem_range',
    length_range',length_reverse,getElem_singleton]
  split
  · exact visited_eq (q := 1) (by omega) (by omega) (by simp; omega)
  · exact visited_eq (q := 0) (by omega) (by omega) (by simp; omega)

theorem searchOrder_perm (h : d≤n) (forward : Bool) :
    (searchOrder n d forward).Perm (range' 1 n) := by
  cases forward with
  | true =>
    have hsplit : range' 1 d++range' (d+1) (n-d)=range' 1 n := by
      rw [Nat.add_comm d,range'_append_1,Nat.add_sub_cancel' h]
    exact hsplit ▸ perm_append_comm
  | false =>
    have hsplit : range' 1 (d-1)++range' (max d 1) (n+1-max d 1)=range' 1 n := by
      rw [show max d 1=1+(d-1) by omega,range'_append_1]
      congr 1
      omega
    exact hsplit ▸ (reverse_perm _).append (reverse_perm _)
end

section
variable {W : Type} {e : Engine W} {re : Matcher} {p : Bytes→Bool} {d : ℕ}

/-- What a search for the first of the lines ends with. -/
def found (e : Engine W) : Option ℤ→EStateM.Result EdError (Engine W) ℤ
  | some k => .ok k e
  | none => .error (.message (ascii "no match")) e

theorem searchFrom_eq (hp : ∀l,re.matchString l=.ok (p l)) (hd : e.buffer.current=d)
    (forward : Bool) (left step : ℕ) : searchFrom re forward left step e =
      found e (((range' step left).map (visited e.buffer.lines.length d forward)).find?
        fun k => p (e.line k)) := by
  induction left generalizing step with
  | zero => rfl
  | succ left ih =>
    have hk : (if forward=true then (e.buffer.current+(step : ℤ)-1)%e.buffer.last
        else (e.buffer.current-(step : ℤ)-1+e.buffer.last*2)%e.buffer.last)+1 =
          visited e.buffer.lines.length d forward step := by
      rw [hd]
      rfl
    rw [searchFrom,run_get_bind,range'_succ,map_cons,find?_cons]
    simp only [hk,hp]
    cases p (e.line (visited e.buffer.lines.length d forward step)) with
    | true => rfl
    | false =>
      have := ih (step+1)
      exact this

theorem found_injective (e : Engine W) : Function.Injective (found e) := by
  intro a b h
  cases a <;> cases b <;> simp_all [found]

/-- Moving an element to the end changes what is found first if it and another one qualify. -/
theorem find?_rotate {q : ℤ→Bool} {a : ℤ} {l : List ℤ} (ha : a∉l) :
    (l++[a]).find? q=(a::l).find? q ↔ ¬ (q a=true ∧ ∃k∈l,q k=true) := by
  simp only [find?_append,find?_cons]
  cases q a with
  | false => simp
  | true =>
    cases hl : l.find? q with
    | none => simpa using find?_eq_none.mp hl
    | some k =>
      have hk := mem_of_find?_eq_some hl
      have hne : k≠a := fun h => ha (h ▸ hk)
      simpa [hne] using ⟨k,hk,find?_some hl⟩

theorem search_eq (hp : ∀l,re.matchString l=.ok (p l))
    (hd : e.buffer.current=d) (hn : e.buffer.lines≠[]) (forward : Bool) :
    search re forward e=found e (((range' 1 e.buffer.lines.length).map
      (visited e.buffer.lines.length d forward)).find? fun k => p (e.line k)) := by
  rw [search,run_get_bind,if_neg (by simpa using hn)]
  exact searchFrom_eq hp hd forward _ 1

theorem search_order_iff (hp : ∀l,re.matchString l=.ok (p l))
    (hd : e.buffer.current=d) (hn : e.buffer.lines≠[]) (hle : d≤e.buffer.lines.length)
    (forward : Bool) :
    (searchOrder e.buffer.lines.length d forward).Perm (range' 1 e.buffer.lines.length) ∧
      (search re forward e=found e
          (((searchOrder e.buffer.lines.length d forward).map Nat.cast).find? fun k =>
            p (e.line k)) ↔ forward=true ∨ d≠0 ∨ ¬ (p (e.line e.buffer.lines.length)=true ∧
          ∃k : ℕ,1≤k ∧ k<e.buffer.lines.length ∧ p (e.line k)=true)) := by
  refine ⟨searchOrder_perm hle forward,?_⟩
  rw [search_eq hp hd hn,(found_injective e).eq_iff]
  by_cases hfirst : forward=true ∨ d≠0
  · rw [visited_order hle hfirst]
    exact iff_of_true rfl (or_assoc.mp (.inl hfirst))
  obtain ⟨rfl,rfl⟩ : forward=false ∧ d=0 := by simpa using hfirst
  obtain ⟨m,hm⟩ := Nat.exists_eq_add_one_of_ne_zero (length_pos_iff.mpr hn).ne'
  have horder : searchOrder (m+1) 0 false=(m+1)::(range' 1 m).reverse := by
    simp [searchOrder,range'_1_concat,add_comm]
  rw [hm,visited_backward_zero,horder,map_append,map_singleton,map_cons,
    find?_rotate (by simp; omega)]
  simp [add_comm 1]
end

def anyLine : Matcher := ⟨fun _ => .ok true,fun _ => .ok []⟩

/-- Two lines, and line zero is the current one. -/
def beforeLines : Engine Unit where
  buffer := { lines := [ascii "a",ascii "b"],current := 0 }
  world := ()

theorem search_order_before : (searchOrder 2 0 true).Perm
    (List.range' 1 2) ∧ search anyLine true beforeLines=.ok 1 beforeLines := by
  obtain ⟨hperm,hiff⟩ := @search_order_iff Unit beforeLines anyLine (fun _ => true) 0 (fun _ => rfl)
    rfl (by decide) (by decide) true
  exact ⟨hperm,hiff.mpr (Or.inl rfl)⟩

theorem search_backward_before : searchOrder 2 0 false=[2,1] ∧
    search anyLine false beforeLines=.ok 1 beforeLines :=
  ⟨rfl,rfl⟩

end Coreutils.EdSearch
