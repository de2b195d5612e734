import Coreutils.GoText
import Mathlib.Algebra.BigOperators.Ring.List
import Mathlib.Data.Nat.Prime.Basic

/-!
# factor prints prime factorisations

`printFactors` and `writeUintFactors` of `cmds/factor/factor.go`. Numbers of up to 64 bits are
divided by trial, where `p <= n/p` keeps the square of `p` from overflowing; the branch for longer
ones asks for a sign greater than one, and is never taken.
-/

namespace Coreutils.FactorOutput
open Function List GoText

structure Tally where
  counts : ℕ→ℕ := fun _ => 0
  order : List ℕ := []

def Tally.add (t : Tally) (p : ℕ) : Tally where
  counts := update t.counts p (t.counts p+1)
  order := if t.counts p=0 then t.order++[p] else t.order

def divideOut (p : ℕ) : ℕ→ℕ→Tally→Option (ℕ×Tally)
  | 0,_,_ => none
  | fuel+1,n,t => if n%p=0 then divideOut p fuel (n/p) (t.add p) else some (n,t)

def divideOdd : ℕ→ℕ→ℕ→Tally→Option (ℕ×Tally)
  | 0,_,_,_ => none
  | fuel+1,p,n,t =>
    if p=0 then none
    else if p≤n/p then do
      let (n,t) ← divideOut p (n+1) n t
      divideOdd fuel ((p+2)%2^64) n t
    else some (n,t)

def tally (n : ℕ) : Option Tally := do
  let (n,t) ← divideOut 2 (n+1) n {}
  let (n,t) ← divideOdd n 3 n t
  pure (if n>1 then t.add n else t)

def writeFactor (exponents : Bool) (p count : ℕ) : Bytes :=
  if exponents && count>1 then 32::digits p++94::digits count
  else (replicate count (32::digits p)).flatten

def writeUintFactors (n : ℕ) (exponents : Bool) : Option Bytes :=
  if n<2 then some []
  else do
    let t ← tally n
    pure (t.order.flatMap fun p => writeFactor exponents p (t.counts p))

/-- `new(big.Int).SetString(s, 10)`. -/
def setString (s : Bytes) : Option ℤ :=
  let (neg,ds) := signed s
  if ds≠[] ∧ ds.all isDigit then some (if neg then -decimal ds else decimal ds) else none

def bitLen (n : ℕ) : ℕ := if n=0 then 0 else n.log2+1

/-- `printFactors`: standard output, standard error and the result; `quote` is `%q`. -/
def printFactors (quote : Bytes→Bytes) (s : Bytes) (exponents : Bool) : Option (Bytes×Bytes×Bool) :=
  match setString s with
  | none => some ([],ascii "factor: " ++ quote s++ascii " is not a valid positive integer\n",false)
  | some n =>
    if n.sign<0 then
      some ([],ascii "factor: " ++ quote s++ascii " is not a valid positive integer\n",false)
    else do
      let factors ←
        if n.sign>0 ∧ bitLen n.natAbs≤64 then writeUintFactors n.natAbs exponents
        else if n.sign>1 then some (32::itoa n)
        else some []
      pure (itoa n++ascii ":" ++ factors++[newline],[],true)

def showFactor (f : ℕ×ℕ) : Bytes :=
  32::digits f.1++if f.2=1 then [] else 94::digits f.2

/-- The printed factors are primes in non-decreasing order with product `n`. -/
structure Factored (n : ℕ) (exponents : Bool) (fs : List (ℕ×ℕ)) : Prop where
  prime : ∀f∈fs,f.1.Prime
  sorted : (fs.map Prod.fst).Pairwise (·≤·)
  prod : (fs.map fun f => f.1^f.2).prod=n
  plain : exponents=false→∀f∈fs,f.2=1

def Tally.value (t : Tally) : ℕ := (t.order.map fun q => q^t.counts q).prod

structure Tally.Proper (t : Tally) : Prop where
  prime : ∀q∈t.order,q.Prime
  sorted : t.order.Pairwise (·<·)
  counted : ∀q,q∈t.order ↔ t.counts q≠0

theorem proper_empty : Tally.Proper {} where
  prime q h := absurd h (not_mem_nil)
  sorted := .nil
  counted q := by simp

variable {p N n : ℕ} {t : Tally}

theorem prod_pow_update_notMem {c : ℕ→ℕ} {k : ℕ} {l : List ℕ} (h : p∉l) :
    (l.map fun q => q^update c p k q).prod=(l.map fun q => q^c q).prod := by
  congr 1
  refine map_congr_left fun q hq => ?_
  have hne : q≠p := by
    rintro rfl
    exact h hq
  rw [update_of_ne hne]

theorem prod_pow_update_mem {c : ℕ→ℕ} {l : List ℕ} (hnd : l.Nodup) (h : p∈l) :
    (l.map fun q => q^update c p (c p+1) q).prod = (l.map fun q => q^c q).prod*p := by
  induction l with
  | nil => exact absurd h not_mem_nil
  | cons q l ih =>
    obtain ⟨hq,hnd⟩ := nodup_cons.mp hnd
    rw [map_cons,prod_cons,map_cons,prod_cons]
    by_cases hpq : q=p
    · subst hpq
      rw [prod_pow_update_notMem hq,update_self]
      ring
    · rw [ih hnd ((mem_cons.mp h).resolve_left (Ne.symm hpq)),update_of_ne hpq,mul_assoc]

theorem Tally.Proper.add (h : t.Proper) (hp : p.Prime) (hle : ∀q∈t.order,q≤p) :
    (t.add p).Proper ∧ (t.add p).value=t.value*p ∧ ∀q∈(t.add p).order,q≤p := by
  by_cases hmem : p∈t.order
  · have horder : (t.add p).order=t.order := if_neg ((h.counted p).mp hmem)
    refine ⟨⟨fun q hq => h.prime q (horder ▸ hq),horder ▸ h.sorted,fun q => ?_⟩,?_,?_⟩
    · rw [horder]
      by_cases hqp : q=p
      · subst hqp
        simp [Tally.add,hmem]
      · simp [Tally.add,update_of_ne hqp,h.counted q]
    · rw [Tally.value,horder]
      exact prod_pow_update_mem (h.sorted.imp fun hlt => hlt.ne) hmem
    · rw [horder]
      exact hle
  · have hzero : t.counts p=0 := by
      by_contra hne
      exact hmem ((h.counted p).mpr hne)
    have horder : (t.add p).order=t.order++[p] := if_pos hzero
    have hlt : ∀q∈t.order,q<p := fun q hq =>
      lt_of_le_of_ne (hle q hq) fun heq => hmem (heq ▸ hq)
    refine ⟨⟨?_,?_,fun q => ?_⟩,?_,?_⟩
    · rw [horder]
      exact forall_mem_append.mpr ⟨h.prime,forall_mem_singleton.mpr hp⟩
    · rw [horder]
      refine pairwise_append.mpr ⟨h.sorted,pairwise_singleton _ _,?_⟩
      intro q hq r hr
      exact mem_singleton.mp hr ▸ hlt q hq
    · rw [horder]
      by_cases hqp : q=p
      · subst hqp
        simp [Tally.add]
      · simp [Tally.add,hqp,h.counted q]
    · rw [Tally.value,horder,map_append,prod_append,map_singleton,prod_singleton]
      simp only [Tally.add]
      rw [prod_pow_update_notMem hmem,update_self,hzero,pow_one,Tally.value]
    · rw [horder]
      exact forall_mem_append.mpr ⟨hle,forall_mem_singleton.mpr le_rfl⟩

/-- The state of the division of `N`: what is left has no prime factor below `p`. -/
structure Dividing (N p n : ℕ) (t : Tally) : Prop where
  proper : t.Proper
  pos : 0<n
  value : t.value*n=N
  rough : ∀q,q.Prime→q ∣ n→p≤q
  bounded : ∀q∈t.order,q≤p

theorem Tally.Proper.value_pos (h : t.Proper) : 0<t.value := by
  refine pos_of_ne_zero (prod_ne_zero fun hx => ?_)
  obtain ⟨q,hq,hzero⟩ := mem_map.mp hx
  exact (pow_pos (h.prime q hq).pos _).ne' hzero

section
variable (h : Dividing N p n t)
include h

theorem Dividing.le : n≤N :=
  h.value ▸ Nat.le_mul_of_pos_left n h.proper.value_pos

/-- A divisor that the loop reaches is a prime. -/
theorem Dividing.prime_of_dvd (hp : 2≤p) (hdvd : p ∣ n) : p.Prime := by
  have hmin := Nat.minFac_prime (show p≠1 by omega)
  have hle := h.rough _ hmin ((Nat.minFac_dvd p).trans hdvd)
  have heq : p.minFac=p := Nat.le_antisymm (Nat.minFac_le (by omega)) hle
  exact heq ▸ hmin

theorem Dividing.step (hp : 2≤p) (hdvd : p ∣ n) : Dividing N p (n/p) (t.add p) := by
  obtain ⟨hproper,hvalue,hbounded⟩ := h.proper.add (h.prime_of_dvd hp hdvd) h.bounded
  refine ⟨hproper,Nat.div_pos (Nat.le_of_dvd h.pos hdvd) (by omega),?_,?_,hbounded⟩
  · rw [hvalue,mul_assoc,Nat.mul_div_cancel' hdvd,h.value]
  · exact fun q hq hqn => h.rough q hq (hqn.trans (Nat.div_dvd_of_dvd hdvd))

theorem divideOut_spec {fuel : ℕ} (hp : 2≤p) (hfuel : n<fuel) :
    ∃n' t',divideOut p fuel n t=some (n',t') ∧ Dividing N p n' t' ∧ ¬ p ∣ n' ∧ n'≤n := by
  induction fuel generalizing n t with
  | zero => omega
  | succ fuel ih =>
    rw [divideOut]
    split_ifs with hmod
    · have hdvd := Nat.dvd_of_mod_eq_zero hmod
      have hlt : n/p<n := Nat.div_lt_self h.pos (by omega)
      obtain ⟨n',t',hrun,hdiv,hnot,hle⟩ := ih (h.step hp hdvd) (by omega)
      exact ⟨n',t',hrun,hdiv,hnot,by omega⟩
    · exact ⟨n,t,rfl,h,fun hdvd => hmod (Nat.mod_eq_zero_of_dvd hdvd),le_rfl⟩

theorem Dividing.next (hnot : ¬ p ∣ n) : Dividing N (p+1) n t := by
  refine ⟨h.proper,h.pos,h.value,fun q hq hqn => ?_,fun q hq => (h.bounded q hq).trans (by omega)⟩
  have hne : p≠q := fun heq => hnot (heq ▸ hqn)
  have := h.rough q hq hqn
  omega

omit h in
/-- No prime is one more than an odd number above one. -/
theorem Dividing.next_odd (h : Dividing N (p+1) n t) (hodd : p%2=1)
    (hp : 3≤p) : Dividing N (p+2) n t := by
  refine ⟨h.proper,h.pos,h.value,fun q hq hqn => ?_,fun q hq => (h.bounded q hq).trans (by omega)⟩
  have hle := h.rough q hq hqn
  have hq2 : q%2=1 := (hq.eq_two_or_odd).resolve_left (by omega)
  omega

/-- When the loop ends, what is left is one or a prime not below the factors found. -/
theorem divideOdd_spec {fuel : ℕ} (hN : N<2^64) (hp : 3≤p) (hodd : p%2=1) (hfuel : n<p+2*fuel) :
    ∃p' n' t',divideOdd (fuel+1) p n t=some (n',t') ∧ Dividing N p' n' t' ∧ n'<p'*p' := by
  induction fuel generalizing p n t with
  | zero =>
    have hlt : n/p<p := (Nat.div_le_self n p).trans_lt (by omega)
    refine ⟨p,n,t,?_,h,(Nat.div_lt_iff_lt_mul (by omega)).mp hlt⟩
    rw [divideOdd,if_neg (by omega),if_neg (by omega)]
  | succ fuel ih =>
    rw [divideOdd,if_neg (by omega)]
    by_cases hle : p≤n/p
    · rw [if_pos hle]
      obtain ⟨n',t',hrun,hdiv,hnot,hn'⟩ := divideOut_spec h (by omega) (Nat.lt_succ_self n)
      -- the square of the divisor is at most `n`, so the next one does not wrap
      have hsq : p*p≤n := (Nat.le_div_iff_mul_le (by omega)).mp hle
      have hthree : 3*p≤p*p := Nat.mul_le_mul_right p hp
      have hlt : p+2<2^64 := by
        have := h.le
        omega
      obtain ⟨p',n'',t'',hrun',hdiv',hlt'⟩ :=
        ih ((hdiv.next hnot).next_odd hodd hp) (by omega) (by omega) (by omega)
      refine ⟨p',n'',t'',?_,hdiv',hlt'⟩
      rw [hrun,Option.bind_eq_bind,Nat.mod_eq_of_lt hlt]
      exact hrun'
    · rw [if_neg hle]
      exact ⟨p,n,t,rfl,h,(Nat.div_lt_iff_lt_mul (by omega)).mp (by omega)⟩

/-- What is left is one or a prime. -/
theorem Dividing.prime_of_lt (hlt : n<p*p) (hn : 1<n) : n.Prime := by
  by_contra hnot
  have hmin := Nat.minFac_prime (show n≠1 by omega)
  have hle := h.rough _ hmin (Nat.minFac_dvd n)
  have hsq := Nat.minFac_sq_le_self h.pos hnot
  rw [sq] at hsq
  have := Nat.mul_le_mul hle hle
  omega

end

theorem tally_spec (hn : 2≤n) (hlt : n<2^64) : ∃t,tally n=some t ∧ t.Proper ∧ t.value=n := by
  have hstart : Dividing n 2 n {} :=
    ⟨proper_empty,by omega,by simp [Tally.value],fun q hq _ => hq.two_le,fun q hq => by simp at hq⟩
  obtain ⟨n₁,t₁,hrun₁,hdiv₁,hnot,-⟩ := divideOut_spec hstart le_rfl (Nat.lt_succ_self n)
  obtain ⟨k,rfl⟩ := Nat.exists_eq_succ_of_ne_zero hdiv₁.pos.ne'
  obtain ⟨p,n₂,t₂,hrun₂,hdiv₂,hlt₂⟩ :=
    divideOdd_spec (hdiv₁.next hnot) hlt le_rfl rfl (by omega : k+1<3+2*k)
  have htally : tally n=some (if n₂>1 then t₂.add n₂ else t₂) := by
    rw [tally,hrun₁,Option.bind_eq_bind,Option.bind_some]
    simp only [Nat.succ_eq_add_one]
    rw [hrun₂]
    rfl
  refine ⟨_,htally,?_⟩
  by_cases hone : n₂>1
  · rw [if_pos hone]
    have hprime := hdiv₂.prime_of_lt hlt₂ hone
    have hle := hdiv₂.rough n₂ hprime (dvd_refl n₂)
    obtain ⟨hproper,hvalue,-⟩ :=
      hdiv₂.proper.add hprime fun q hq => (hdiv₂.bounded q hq).trans hle
    exact ⟨hproper,hvalue.trans hdiv₂.value⟩
  · have h1 : n₂=1 := by
      have := hdiv₂.pos
      omega
    rw [if_neg hone]
    refine ⟨hdiv₂.proper,?_⟩
    rw [←hdiv₂.value,h1,mul_one]

def Tally.factors (t : Tally) (exponents : Bool) (p : ℕ) : List (ℕ×ℕ) :=
  if exponents && t.counts p>1 then [(p,t.counts p)] else replicate (t.counts p) (p,1)

theorem writeFactor_eq (t : Tally) (exponents : Bool) (p : ℕ) :
    writeFactor exponents p (t.counts p)=(t.factors exponents p).flatMap showFactor := by
  unfold writeFactor Tally.factors
  split_ifs with h
  · have hne : t.counts p≠1 := by
      simp only [Bool.and_eq_true,decide_eq_true_eq] at h
      omega
    simp [showFactor,hne]
  · simp [showFactor,flatMap_replicate]

theorem fst_of_mem_factors {exponents : Bool} {f : ℕ×ℕ} (h : f∈t.factors exponents p) : f.1=p := by
  unfold Tally.factors at h
  split at h
  · rw [mem_singleton.mp h]
  · rw [(mem_replicate.mp h).2]

theorem prod_factors (t : Tally) (exponents : Bool) (p : ℕ) :
    ((t.factors exponents p).map fun f => f.1^f.2).prod=p^t.counts p := by
  unfold Tally.factors
  split
  · simp
  · simp

theorem Tally.Proper.factored (h : t.Proper) (exponents : Bool) :
    Factored t.value exponents (t.order.flatMap (t.factors exponents)) where
  prime f hf := by
    obtain ⟨p,hp,hf⟩ := mem_flatMap.mp hf
    exact fst_of_mem_factors hf ▸ h.prime p hp
  sorted := by
    rw [pairwise_map]
    refine pairwise_flatMap.mpr ⟨fun p _ => ?_,h.sorted.imp fun {p q} hlt f hf g hg => ?_⟩
    · refine pairwise_of_forall_mem_list fun f hf g hg => ?_
      rw [fst_of_mem_factors hf,fst_of_mem_factors hg]
    · rw [fst_of_mem_factors hf,fst_of_mem_factors hg]
      exact hlt.le
  prod := by
    rw [Tally.value]
    induction t.order with
    | nil => rfl
    | cons p l ih =>
      rw [flatMap_cons,map_append,prod_append,ih,prod_factors,map_cons,prod_cons]
  plain hno f hf := by
    obtain ⟨p,-,hf⟩ := mem_flatMap.mp hf
    rw [Tally.factors,hno,Bool.false_and] at hf
    rw [(mem_replicate.mp hf).2]

theorem writeUintFactors_spec (hn : 0<n) (hlt : n<2^64) (exponents : Bool) :
    ∃fs,writeUintFactors n exponents=some (fs.flatMap showFactor) ∧ Factored n exponents fs := by
  rw [writeUintFactors]
  split
  · obtain rfl : n=1 := by omega
    exact ⟨[],rfl,⟨by simp,.nil,rfl,by simp⟩⟩
  · obtain ⟨t,htally,hproper,rfl⟩ := tally_spec (by omega : 2≤n) hlt
    refine ⟨_,?_,hproper.factored exponents⟩
    rw [htally]
    simp [writeFactor_eq,flatMap_assoc]

theorem bitLen_le (hn : n≠0) : bitLen n≤64 ↔ n<2^64 := by
  rw [bitLen,if_neg hn,Nat.succ_le_iff,Nat.log2_lt hn]

/-- Numerals are accepted, and factorisations printed exactly for at most 64 bits. -/
theorem printFactors_factors_iff (quote : Bytes→Bytes) {s : Bytes} {n : ℕ} (hn : 0<n)
    (hs : setString s=some (n : ℤ)) (exponents : Bool) : ∃factors,printFactors quote s exponents =
        some (itoa n++ascii ":" ++ factors++[newline],[],true) ∧
      ((∃fs,factors=fs.flatMap showFactor ∧ Factored n exponents fs) ↔ n<2^64) := by
  have hsign : (n : ℤ).sign=1 := Int.sign_eq_one_of_pos (by omega)
  have hprint : printFactors quote s exponents =
      (if bitLen n≤64 then writeUintFactors n exponents else some []).bind fun factors =>
        some (itoa n++ascii ":" ++ factors++[newline],[],true) := by
    rw [printFactors,hs]
    simp only [hsign]
    by_cases hlen : bitLen n≤64 <;> simp [hlen]
  rw [hprint]
  simp only [bitLen_le hn.ne']
  by_cases hlt : n<2^64
  · obtain ⟨fs,hwrite,hfs⟩ := writeUintFactors_spec hn hlt exponents
    rw [if_pos hlt,hwrite]
    exact ⟨_,rfl,iff_of_true ⟨fs,rfl,hfs⟩ hlt⟩
  rw [if_neg hlt]
  refine ⟨[],rfl,iff_of_false ?_ hlt⟩
  rintro ⟨fs,hnil,hfs⟩
  have hprod := hfs.prod
  cases fs with
  | nil => simp at hprod; omega
  | cons f fs => simp [showFactor] at hnil

theorem printFactors_factors_twelve : ∃factors,printFactors id (ascii "012") true =
        some (ascii "12:" ++ factors++[newline],[],true) ∧
      ∃fs,factors=fs.flatMap showFactor ∧ Factored 12 true fs := by
  obtain ⟨factors,hprint,hiff⟩ :=
    printFactors_factors_iff id (n := 12) (by decide) (s := ascii "012") (by decide) true
  exact ⟨factors,hprint,hiff.mpr (by decide)⟩

/-- No factor of the least number of 65 bits is printed. -/
theorem not_printFactors_factors : setString (ascii "18446744073709551616")=some ((2^64 : ℕ) : ℤ) ∧
      printFactors id (ascii "18446744073709551616") false =
        some (ascii "18446744073709551616:\n",[],true) := by
  decide

end Coreutils.FactorOutput
