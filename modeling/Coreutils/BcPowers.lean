import Coreutils.BcNumber

/-!
# Powers of bc numbers

`Pow` against the power of a rational number, truncated at the scale of bc. The exponent and the
scale are machine integers; the conditions say when they wrap around and when it shows.
-/

namespace Coreutils.BcPowers
open GoText Truncation BcNumber

def powScale (x : Number) (e s : ℤ) : ℤ :=
  if e<0 then s else if e=0 then 0 else min (x.scale*e) (max s x.scale)

/-- An error, or the power truncated at its scale; zero has no negative powers. -/
def PowCorrect (x : Number) (e s : ℤ) : Option (Except NumberError Number)→Prop
  | none => False
  | some (.error _) => True
  | some (.ok q) => (e<0→x.value≠0) ∧ 0≤q.scale ∧ q.scale=powScale x e s ∧
      q.value=truncateAt (10^powScale x e s) (x.value^e)

/-- A positive exponent: the scale does not wrap around, or still cuts off every digit. -/
def RaiseFits (x : Number) (e s : ℤ) : Prop :=
  x.scale*e<2^63 ∨ max s x.scale≤wrap64 (x.scale*e) ∧
    x.n.natAbs^e.toNat<10^(wrap64 (x.scale*e)-max s x.scale).toNat

/-- A negative exponent: the digits of the dividend wrap around to a negative number, an error; or
the divisor is not zero and they do not wrap or are too few for a quotient. -/
def InvertFits (x : Number) (m s : ℤ) : Prop :=
  wrap64 (x.scale*m+s)<0 ∨ x.n≠0 ∧ (x.scale*m+s<2^63 ∨
    10^(x.scale*m+s).toNat<x.n.natAbs^m.toNat)

/-- The smallest exponent is its own negative, and its powers come out as one. -/
def SmallestFits (x : Number) (s : ℤ) : Prop :=
  x.scale%2=1 ∨ truncateAt (10^s) (x.value^(-2^63 : ℤ))=1

def PowFits (x : Number) (e s : ℤ) : Prop :=
  if e = -2^63 then SmallestFits x s else if e<0 then InvertFits x (-e) s
  else e=0 ∨ RaiseFits x e s

theorem pow10_of_nonneg {k : ℤ} (h : 0≤k) : pow10 k=10^k.toNat := by
  unfold pow10
  split
  · have hk : k=0 := by omega
    simp [hk]
  · rfl

variable {i j : ℕ}

theorem pow_mul_ten_le (h : i<j) : 10^i*10≤10^j := by
  rw [←pow_succ]
  exact Nat.pow_le_pow_right (by omega) h

/-- Cutting off more digits changes a number that has digits left. -/
theorem tdiv_pow_eq_iff (n : ℤ) (h : i<j) : n.tdiv (10^i)=n.tdiv (10^j) ↔ n.natAbs<10^i := by
  have hle := pow_mul_ten_le h
  have hi : 0<10^i := by positivity
  constructor
  · intro heq
    have hdiv := congrArg Int.natAbs heq
    simp only [Int.natAbs_tdiv] at hdiv
    change n.natAbs/10^i=n.natAbs/10^j at hdiv
    by_contra hge
    have hpos : 0<n.natAbs/10^i := Nat.div_pos (not_lt.mp hge) hi
    have hten : n.natAbs/10^j≤n.natAbs/10^i/10 := by
      rw [Nat.div_div_eq_div_mul]
      exact Nat.div_le_div_left hle (by positivity)
    omega
  · intro hlt
    have hzero : ∀k,i≤k→n.tdiv (10^k)=0 := by
      intro k hk
      rw [←Int.natAbs_eq_zero,Int.natAbs_tdiv]
      exact Nat.div_eq_of_lt (hlt.trans_le (Nat.pow_le_pow_right (by omega) hk))
    rw [hzero i le_rfl,hzero j h.le]

/-- A quotient of a higher power of ten is another one unless it is zero. -/
theorem pow_tdiv_eq_iff {n : ℤ} (hn : n≠0) (h : i<j) :
    (10^i : ℤ).tdiv n=(10^j : ℤ).tdiv n ↔ 10^j<n.natAbs := by
  have hle := pow_mul_ten_le h
  have hpos : 0<n.natAbs := Int.natAbs_pos.mpr hn
  constructor
  · intro heq
    have hdiv := congrArg Int.natAbs heq
    simp only [Int.natAbs_tdiv] at hdiv
    change 10^i/n.natAbs=10^j/n.natAbs at hdiv
    by_contra hge
    have hone : 0<10^j/n.natAbs := Nat.div_pos (not_lt.mp hge) hpos
    have hten : 10^i/n.natAbs*10≤10^j/n.natAbs := by
      rw [Nat.le_div_iff_mul_le hpos]
      calc 10^i/n.natAbs*10*n.natAbs=10^i/n.natAbs*n.natAbs*10 := by ring
        _≤10^i*10 := Nat.mul_le_mul_right _ (Nat.div_mul_le_self _ _)
        _≤10^j := hle
    omega
  · intro hlt
    have hzero : ∀k,k≤j→(10^k : ℤ).tdiv n=0 := by
      intro k hk
      rw [←Int.natAbs_eq_zero,Int.natAbs_tdiv,Int.natAbs_pow]
      exact Nat.div_eq_of_lt ((Nat.pow_le_pow_right (by omega) hk).trans_lt hlt)
    rw [hzero i h.le,hzero j le_rfl]

theorem exponent_of_value {y : Number} (hy : 0≤y.scale) {e : ℤ} (hv : y.value=e)
    (he : isInt64 e=true) : exponent y=.ok e := by
  have hn : y.n=e*pow10 y.scale := by
    have : (y.n : ℚ)=((e*pow10 y.scale : ℤ) : ℚ) := by
      rw [Int.cast_mul,pow10_cast hy,←hv,Number.value]
      field_simp
    exact_mod_cast this
  have hpow : pow10 y.scale≠0 := by
    rw [pow10_of_nonneg hy]
    positivity
  unfold exponent
  rw [hn,Int.mul_tdiv_cancel _ hpow]
  by_cases h : y.scale=0 <;> simp [h,he,pow10_zero]

theorem value_inj (m n s : ℤ) : Number.value ⟨m,s⟩=Number.value ⟨n,s⟩ ↔ m=n := by
  simp only [Number.value]
  rw [div_left_inj' (zpow_ne_zero _ (by norm_num)),Int.cast_inj]

theorem wrap64_range (v : ℤ) : -2^63≤wrap64 v ∧ wrap64 v<2^63 := by
  simp only [wrap64]
  omega

section
variable {x : Number} {s : ℤ} {k : ℕ}

theorem value_raise (x : Number) (k : ℕ) {t : ℤ} (h : t≤x.scale*k) : truncateAt (10^t) (x.value^k) =
      Number.value ⟨(x.n^k).tdiv (pow10 (x.scale*k-t)),t⟩ := by
  rw [value_tdiv _ h]
  simp only [Number.value]
  rw [Int.cast_pow,div_pow,zpow_mul,zpow_natCast]

def raise (x : Number) (k : ℕ) (s : ℤ) : Number :=
  if wrap64 (x.scale*k)>max s x.scale then
    ⟨(x.n^k).tdiv (pow10 (wrap64 (x.scale*k)-max s x.scale)),max s x.scale⟩
  else ⟨x.n^k,wrap64 (x.scale*k)⟩

theorem powCorrect_raise_iff (hx : 0≤x.scale) (hk : 0<k) (hs : 0 ≤ s) (q : Number) :
    PowCorrect x k s (some (.ok q)) ↔
      q=⟨(x.n^k).tdiv (pow10 (x.scale*k-min (x.scale*k) (max s x.scale))),
        min (x.scale*k) (max s x.scale)⟩ := by
  have hprod : 0≤x.scale*k := by positivity
  have hscale : powScale x k s=min (x.scale*k) (max s x.scale) := by
    simp only [powScale,Int.natCast_eq_zero]
    rw [if_neg (by omega),if_neg (by omega)]
  obtain ⟨n,scale⟩ := q
  simp only [PowCorrect,hscale,zpow_natCast,value_raise x k (min_le_left _ _),Number.mk.injEq]
  constructor
  · rintro ⟨-,-,rfl,hv⟩
    exact ⟨(value_inj _ _ _).mp hv,rfl⟩
  · rintro ⟨rfl,rfl⟩
    exact ⟨by omega,by omega,rfl,rfl⟩

theorem powCorrect_raise (hx : 0≤x.scale) (hx' : x.scale<2^63) (hk : 0<k)
    (hs : 0 ≤ s) (hs' : s<2^63) : PowCorrect x k s (some (.ok (raise x k s))) ↔
      RaiseFits x k s := by
  have hprod : 0≤x.scale*k := by positivity
  rw [powCorrect_raise_iff hx hk hs,RaiseFits,raise]
  rcases lt_or_ge (x.scale*k) (2^63) with hlt | hge
  · rw [wrap64_of_range (by omega) hlt]
    refine iff_of_true ?_ (Or.inl hlt)
    split
    · rw [min_eq_right (by omega)]
    · rw [min_eq_left (by omega),sub_self,pow10_zero,Int.tdiv_one]
  · -- the scale wraps around, and the right one is the larger of the two scales
    obtain ⟨-,hwrap⟩ := wrap64_range (x.scale*k)
    generalize wrap64 (x.scale*k)=w at hwrap ⊢
    rw [or_iff_right (by omega),min_eq_right (by omega),
      pow10_of_nonneg (k := x.scale*k-max s x.scale) (by omega)]
    have hcut := tdiv_pow_eq_iff (x.n^k) (i := (w-max s x.scale).toNat)
      (j := (x.scale*k-max s x.scale).toNat) (by omega)
    rw [Int.natAbs_pow] at hcut
    split
    · rw [pow10_of_nonneg (by omega),Number.mk.injEq,and_iff_left rfl,hcut]
      exact (and_iff_right (by omega)).symm
    rw [Number.mk.injEq]
    constructor
    · rintro ⟨hn,rfl⟩
      simp only [sub_self,Int.toNat_zero,pow_zero,Int.tdiv_one] at hcut ⊢
      exact ⟨le_rfl,hcut.mp hn⟩
    · rintro ⟨hle,hn⟩
      obtain rfl : w=max s x.scale := by omega
      simp only [sub_self,Int.toNat_zero,pow_zero,Int.tdiv_one] at hcut hn
      exact ⟨hcut.mpr hn,rfl⟩

theorem value_eq_zero_iff (x : Number) : x.value=0 ↔ x.n=0 := by
  rw [Number.value,div_eq_zero_iff,or_iff_left (zpow_ne_zero _ (by norm_num)),Int.cast_eq_zero]

theorem value_invert (x : Number) (k : ℕ) (h : 0≤x.scale*k+s) :
    truncateAt (10^s) (x.value^(-k : ℤ)) = Number.value ⟨(pow10 (x.scale*k+s)).tdiv (x.n^k),s⟩ := by
  have hq : x.value^(-k : ℤ)*10^s =
      ((pow10 (x.scale*k+s) : ℤ) : ℚ)/((x.n^k : ℤ) : ℚ) := by
    rw [pow10_cast h,zpow_add₀ (by norm_num),zpow_mul,zpow_neg,zpow_natCast,zpow_natCast,
      Number.value,div_pow,Int.cast_pow,inv_div,div_mul_eq_mul_div]
  rw [truncateAt,hq,toward_div]
  rfl

def invert (x : Number) (k : ℕ) (s : ℤ) : Option (Except NumberError Number) :=
  if wrap64 (x.scale*k+s)<0 then some (.error .scaleTooLarge)
  else if x.n^k=0 then none
  else some (.ok ⟨(pow10 (wrap64 (x.scale*k+s))).tdiv (x.n^k),s⟩)

theorem powCorrect_invert (hx : 0≤x.scale) (hk : 0<k) (hs : 0 ≤ s) :
    PowCorrect x (-k) s (invert x k s) ↔ InvertFits x k s := by
  have hprod : 0≤x.scale*k := by positivity
  have hzero : x.n^k=0 ↔ x.n=0 := pow_eq_zero_iff (by omega)
  have hscale : powScale x (-k) s=s := if_pos (by omega)
  unfold invert InvertFits
  split
  · rename_i hneg
    simp [PowCorrect,hneg]
  rename_i hneg
  rw [or_iff_right hneg]
  split_ifs with hn
  · simp [PowCorrect,hzero.mp hn]
  rw [hzero] at hn
  rw [and_iff_right hn,PowCorrect,hscale,value_invert x k (by omega),value_inj,
    and_iff_right fun _ => (value_eq_zero_iff x).not.mpr hn,and_iff_right hs,and_iff_right rfl]
  rcases lt_or_ge (x.scale*k+s) (2^63) with hlt | hge
  · rw [wrap64_of_range (by omega) hlt]
    exact iff_of_true rfl (.inl hlt)
  · obtain ⟨-,hwrap⟩ := wrap64_range (x.scale*k+s)
    rw [or_iff_right (by omega),pow10_of_nonneg (by omega),pow10_of_nonneg (by omega),
      pow_tdiv_eq_iff (hzero.not.mpr hn) (by omega),Int.natAbs_pow,Int.toNat_natCast]

def invertSmallest (x : Number) (s : ℤ) : Option (Except NumberError Number) :=
  if x.scale%2=1 then some (.error .scaleTooLarge) else some (.ok ⟨pow10 s,s⟩)

theorem powCorrect_smallest (hs : 0 ≤ s) :
    PowCorrect x (-2^63) s (invertSmallest x s) ↔ SmallestFits x s := by
  have hscale : powScale x (-2^63) s=s := if_pos (by omega)
  unfold invertSmallest SmallestFits
  split_ifs with hodd
  · simp [PowCorrect,hodd]
  have hone : Number.value ⟨pow10 s,s⟩=1 := by
    rw [Number.value,pow10_cast hs,div_self (zpow_ne_zero _ (by norm_num))]
  rw [or_iff_right hodd,PowCorrect,hscale,hone,and_iff_right hs,and_iff_right rfl,eq_comm]
  refine and_iff_right_of_imp fun h _ hzero => ?_
  rw [hzero] at h
  simp [truncateAt,toward] at h

end

theorem pow_eq {x y : Number} {e s : ℤ} (he : exponent y=.ok e) (hint : isInt64 e=true)
    (hs : 0 ≤ s) (hs' : s<2^63) : x.pow y s =
      if e = -2^63 then invertSmallest x s else if e<0 then invert x (-e).toNat s
      else if e=0 then some (.ok (fromInt64 1)) else some (.ok (raise x e.toNat s)) := by
  have hrange : -2^63≤e ∧ e<2^63 := by simpa [isInt64] using hint
  unfold Number.pow
  rw [he]
  split
  · rename_i h
    cases h
  · rename_i h
    cases h
    rfl
  rename_i hne h
  cases h
  have hne : e≠0 := fun h => hne (by rw [h])
  simp only [if_neg hne]
  rcases lt_or_ge e 0 with hneg | hpos
  · rw [if_pos hneg,if_pos hneg,if_pos hneg]
    by_cases hmin : e = -2^63
    · have hmag : wrap64 (-e) = -2^63 := by
        rw [hmin]
        decide
      have hexp : bigExp x.n (-2^63)=1 := if_pos (by decide)
      rw [if_pos hmin,hmag,hexp,invertSmallest,if_neg one_ne_zero]
      by_cases hodd : x.scale%2=1
      · rw [if_pos hodd,if_pos (by simp only [wrap64]; omega)]
      · have hwrap : wrap64 (x.scale*-2^63+s)=s := by
          simp only [wrap64]
          omega
        rw [if_neg hodd,hwrap,if_neg (by omega),Int.tdiv_one]
    · have hmag : wrap64 (-e) = -e := wrap64_of_range (by omega) (by omega)
      have hexp : bigExp x.n (-e)=x.n^(-e).toNat := if_neg (by omega)
      rw [if_neg hmin,hmag,hexp,invert,Int.toNat_of_nonneg (by omega)]
  · have hmax : (if x.scale>s then x.scale else s)=max s x.scale := by split <;> omega
    have hexp : bigExp x.n e=x.n^e.toNat := if_neg (by omega)
    have hmin : e ≠ -2^63 := by omega
    simp only [if_neg (not_lt.mpr hpos),hexp,hmax,raise,Int.toNat_of_nonneg hpos]
    split <;> rfl

/-- `Pow` is right or an error exactly if no wrap-around shows and zero is not divided by. -/
theorem powCorrect_iff {x y : Number} (hx : 0≤x.scale) (hx' : x.scale<2^63)
    (hy : 0≤y.scale) {e s : ℤ} (hv : y.value=e) (he : isInt64 e=true) (hs : 0 ≤ s)
    (hs' : s ≤ maxScale) : PowCorrect x e s (x.pow y s) ↔ PowFits x e s := by
  have hlarge : s<2^63 := by
    simp only [maxScale] at hs'
    omega
  rw [pow_eq (exponent_of_value hy hv he) he hs hlarge,PowFits]
  split
  · rename_i h
    rw [h]
    exact powCorrect_smallest hs
  split
  · obtain ⟨k,rfl⟩ : ∃k : ℕ,e = -k := ⟨(-e).toNat,by omega⟩
    rw [neg_neg]
    exact powCorrect_invert hx (by omega) hs
  obtain ⟨k,rfl⟩ : ∃k : ℕ,e=k := ⟨e.toNat,by omega⟩
  split_ifs with hzero
  · refine iff_of_true ?_ (.inl hzero)
    rw [hzero]
    simp [PowCorrect,powScale,fromInt64,Number.value,truncateAt,toward]
  · rw [or_iff_right hzero]
    exact powCorrect_raise hx hx' (by omega) hs hlarge

/-- `0.5 ^ 3` at scale 2. -/
theorem powCorrect_half : PowFits ⟨5,1⟩ 3 2 ∧ PowCorrect ⟨5,1⟩ 3 2 (Number.pow ⟨5,1⟩ ⟨3,0⟩ 2) := by
  have hfits : PowFits ⟨5,1⟩ 3 2 := by simp [PowFits,RaiseFits]
  exact ⟨hfits,(powCorrect_iff (by decide) (by decide) (by decide) (by simp [Number.value])
    (by decide)
    (by decide) (by decide)).mpr hfits⟩

/-- A negative power of zero panics, and the smallest exponent gives one for any base. -/
theorem not_powCorrect_zero : ¬ PowCorrect ⟨0,0⟩ (-1) 0 (Number.pow ⟨0,0⟩ ⟨-1,0⟩ 0) ∧
    Number.pow ⟨0,0⟩ ⟨-1,0⟩ 0=none ∧ Number.pow ⟨2,0⟩ ⟨-2^63,0⟩ 0=some (.ok ⟨1,0⟩) := by
  refine ⟨fun h => ?_,by decide,by decide⟩
  exact h

end Coreutils.BcPowers
