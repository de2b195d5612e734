import Mathlib.Data.List.Lex
import Mathlib.Data.List.Sort
import Mathlib.Data.Nat.Digits.Lemmas
import Mathlib.Data.Nat.Log
import Mathlib.Tactic.Ring

/-!
# Numerals

`Before` is the part of the lexicographic order that is decided at a place both lists have; it
survives any text put in front of the lists or after them. Numerals of one width are in the order of
their numbers. A numeral is converted to another base by multiplying and adding its digits.
-/

namespace Coreutils.Numerals
open List

section
variable {α : Type*} [LT α] {a b : List α}

/-- The lists differ at a common place, and the first difference puts the first list first. -/
def Before (a b : List α) : Prop :=
  ∃p c d x y,a=p++c::x ∧ b=p++d::y ∧ c<d

theorem before_cons {c d : α} (h : c<d) (x y : List α) : Before (c::x) (d::y) :=
  ⟨[],c,d,x,y,rfl,rfl,h⟩

theorem Before.append (h : Before a b) (x y : List α) : Before (a++x) (b++y) := by
  obtain ⟨p,c,d,u,v,rfl,rfl,hlt⟩ := h
  exact ⟨p,c,d,u++x,v++y,by simp,by simp,hlt⟩

theorem Before.append_left (h : Before a b) (p : List α) : Before (p++a) (p++b) := by
  obtain ⟨q,c,d,u,v,rfl,rfl,hlt⟩ := h
  exact ⟨p++q,c,d,u,v,by simp,by simp,hlt⟩

theorem Before.lt (h : Before a b) : a<b := by
  obtain ⟨p,c,d,x,y,rfl,rfl,hlt⟩ := h
  exact List.Lex.append_left (·<·) (List.Lex.rel hlt) p

end

section
variable {α : Type*} (sym : ℕ→α) (r : ℕ)

def spell : ℕ→ℕ→List α
  | 0,_ => []
  | w+1,v => spell w (v/r)++[sym (v%r)]

@[simp] theorem length_spell (w v : ℕ) : (spell sym r w v).length=w := by
  induction w generalizing v with
  | zero => rfl
  | succ w ih => simp [spell,ih]

theorem spell_succ (w v : ℕ) : spell sym r (w+1) v=sym (v/r^w%r)::spell sym r w v := by
  induction w generalizing v with
  | zero => simp [spell]
  | succ w ih =>
    rw [spell,ih,Nat.div_div_eq_div_mul,←Nat.pow_succ']
    rfl

/-- A numeral that is wider than it needs to be starts with zeros. -/
theorem spell_pad {w v : ℕ} (h : v<r^w) (n : ℕ) :
    spell sym r (n+w) v=replicate n (sym 0)++spell sym r w v := by
  have hr : 0<r ∨ w=0 := by
    rcases eq_zero_or_pos r with rfl | hr
    · rcases eq_zero_or_pos w with hw | hw
      · exact .inr hw
      · simp [hw.ne'] at h
    · exact .inl hr
  induction n with
  | zero => simp
  | succ n ih =>
    have hsmall : v/r^(n+w)=0 := by
      rcases hr with hr | rfl
      · exact Nat.div_eq_of_lt (h.trans_le (Nat.pow_le_pow_right hr (by omega)))
      · simp [Nat.lt_one_iff.mp h]
    rw [Nat.succ_add_eq_add_succ,Nat.add_succ,spell_succ,hsmall,ih]
    rfl

variable {sym r}

theorem spell_before [LT α] (hsym : ∀c d,c<d→d<r→sym c<sym d) {w v v' : ℕ} (h : v<v')
    (hw : v'<r^w) : Before (spell sym r w v) (spell sym r w v') := by
  induction w generalizing v v' with
  | zero =>
    rw [pow_zero] at hw
    omega
  | succ w ih =>
    have hr : 0<r := pos_of_ne_zero fun h₀ => by simp [h₀] at hw
    rw [spell]
    rcases Nat.lt_or_eq_of_le (Nat.div_le_div_right h.le) with hq | hq
    · -- the numbers differ before the last place
      have hlt : v'/r<r^w := Nat.div_lt_of_lt_mul (by rwa [←Nat.pow_succ'])
      exact (ih hq hlt).append _ _
    have hmod : v%r<v'%r := by
      have := Nat.div_add_mod v r
      have := Nat.div_add_mod v' r
      rw [hq] at *
      omega
    rw [hq]
    exact (before_cons (hsym _ _ hmod (Nat.mod_lt v' hr)) [] []).append_left _

end

section
variable {r f : ℕ}

/-- A turn divides by the base. -/
def places (r : ℕ) : ℕ→ℕ→List ℕ
  | 0,_ => []
  | fuel+1,v => if v=0 then [] else v%r::places r fuel (v/r)

theorem places_eq (hr : 1<r) {fuel v : ℕ} (h : v≤fuel) : places r fuel v=Nat.digits r v := by
  induction fuel generalizing v with
  | zero => rw [Nat.le_zero.mp h,Nat.digits_zero,places]
  | succ fuel ih =>
    rw [places]
    split_ifs with hv
    · rw [hv,Nat.digits_zero]
    · have hlt := Nat.div_lt_self (Nat.pos_of_ne_zero hv) hr
      rw [ih (by omega),←Nat.digits_def' hr (Nat.pos_of_ne_zero hv)]

/-- The places times `f` with `c` added to the last one; what is carried past the first place
becomes places of its own. -/
def mulAdd (r f : ℕ) : List ℕ→ℕ→List ℕ
  | [],c => places r c c
  | d::ds,c => (c+d*f)%r::mulAdd r f ds ((c+d*f)/r)

theorem mulAdd_digits (hr : 1<r) (hf : 0<f) (v c : ℕ) :
    mulAdd r f (Nat.digits r v) c=Nat.digits r (c+v*f) := by
  induction v using Nat.strong_induction_on generalizing c with
  | _ v ih =>
    rcases eq_zero_or_pos v with rfl | hv
    · rw [Nat.digits_zero,mulAdd,places_eq hr le_rfl,Nat.zero_mul,Nat.add_zero]
    have hsum : c+v*f=c+v%r*f+r*(v/r*f) := by
      conv_lhs => rw [←Nat.mod_add_div v r]
      ring
    have hpos : 0<c+v*f := Nat.add_pos_right _ (Nat.mul_pos hv hf)
    rw [Nat.digits_def' hr hv,mulAdd,ih _ (Nat.div_lt_self hv hr),Nat.digits_def' hr hpos,hsum,
      Nat.add_mul_mod_self_left,Nat.add_mul_div_left _ _ (by omega)]

/-- The numeral in base `r` of a numeral in base `f`, place by place from the first one. -/
def convert (r f : ℕ) (ds : List ℕ) : List ℕ := (ds.foldl (mulAdd r f) [0]).reverse

theorem foldl_mulAdd (hr : 1<r) (hf : 0<f) (ds : List ℕ) (v : ℕ) :
    ds.foldl (mulAdd r f) (Nat.digits r v) =
      Nat.digits r (Nat.ofDigits f ds.reverse+v*f^ds.length) := by
  induction ds generalizing v with
  | nil => simp
  | cons d ds ih =>
    rw [foldl_cons,mulAdd_digits hr hf,ih,reverse_cons,Nat.ofDigits_append,
      Nat.ofDigits_singleton,length_reverse,length_cons]
    ring_nf

/-- A numeral that starts with another digit than zero is that of a number. -/
theorem exists_digits (hf : 1<f) {d : ℕ} {t : List ℕ} (hlt : ∀x∈d::t,x<f) (hd : d≠0) :
    ∃v,(Nat.digits f v).reverse=d::t := by
  refine ⟨Nat.ofDigits f (d::t).reverse,?_⟩
  rw [Nat.digits_ofDigits f hf _ (fun x hx => hlt x (mem_reverse.mp hx)) (by simpa using hd),
    reverse_reverse]

theorem convert_digits (hr : 1<r) (hf : 1<f) {v d : ℕ} {t : List ℕ} (hd : d≠0)
    (hv : (Nat.digits f v).reverse=d::t) : convert r f (d::t)=(Nat.digits r v).reverse := by
  have hfirst : mulAdd r f [0] d=Nat.digits r d := by
    rw [Nat.digits_def' hr (Nat.pos_of_ne_zero hd)]
    simp [mulAdd,places_eq hr le_rfl]
  have hvalue : Nat.ofDigits f (d::t).reverse=v := by rw [←hv,reverse_reverse,Nat.ofDigits_digits]
  rw [reverse_cons,Nat.ofDigits_append,Nat.ofDigits_singleton,length_reverse,
    Nat.mul_comm _ d] at hvalue
  rw [convert,foldl_cons,hfirst,foldl_mulAdd hr (by omega),hvalue]

/-- No digits stand for zero. -/
def recode (r f : ℕ) (ds : List ℕ) : List ℕ := if ds=[] then [] else convert r f ds

theorem recode_recode (hr : 1<r) (hf : 1<f) {ds : List ℕ} (hlt : ∀x∈ds,x<f)
    (hhead : ds.head?≠some 0) : (∀x∈recode r f ds,x<r) ∧ (recode r f ds).head?≠some 0 ∧
      recode f r (recode r f ds)=ds := by
  cases ds with
  | nil => simp [recode]
  | cons d t =>
    have hd : d≠0 := by simpa using hhead
    obtain ⟨v,hv⟩ := exists_digits hf hlt hd
    have hv₀ : v≠0 := by
      rintro rfl
      simp at hv
    have hconv : recode r f (d::t)=(Nat.digits r v).reverse := convert_digits hr hf hd hv
    rw [hconv]
    cases hds : (Nat.digits r v).reverse with
    | nil => simp [Nat.digits_ne_nil_iff_ne_zero.mpr hv₀] at hds
    | cons d' t' =>
      have hd' : d'≠0 := by simpa [reverse_eq_iff.mp hds] using Nat.getLast_digit_ne_zero r hv₀
      refine ⟨fun x hx => ?_,by simpa using hd',(convert_digits hf hr hd' hds).trans hv⟩
      rw [←hds,mem_reverse] at hx
      exact Nat.digits_lt_base hr hx

end
end Coreutils.Numerals
