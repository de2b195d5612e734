import Coreutils.GoText
import Coreutils.Truncation
import Mathlib.Data.Rat.Floor
import Mathlib.Data.Sign.Basic

/-!
# Numbers of bc

`cmds/internal/bc/number.go`: decimals with an explicit scale. A scale counts digits held in memory,
so sums of scales do not wrap; the product of a scale with an exponent may.
-/

namespace Coreutils.BcNumber
open GoText Truncation

/-- `Number`: the decimal `n * 10^-scale`. -/
structure Number where
  n : ℤ
  scale : ℤ
  deriving DecidableEq,Repr

inductive NumberError where
  | invalidBase (base : ℤ)
  | invalidNumber (s : Bytes)
  | invalidDigit (r : UInt8)
  | divideByZero
  | nonIntegerExponent
  | exponentTooLarge
  | scaleTooLarge
  | negativeRoot
  deriving DecidableEq,Repr

def maxBase : ℤ := 999

def maxDim : ℤ := 2048

def maxScale : ℤ := 99

def zero : Number := ⟨0,0⟩

def fromInt64 (v : ℤ) : Number := ⟨v,0⟩

def pow10 (n : ℤ) : ℤ := if n≤0 then 1 else 10^n.toNat

def Number.sign (x : Number) : ℤ := x.n.sign

def align (a b : Number) : ℤ×ℤ×ℤ :=
  let s := if b.scale>a.scale then b.scale else a.scale
  let ax := if a.scale<s then a.n*pow10 (s-a.scale) else a.n
  let bx := if b.scale<s then b.n*pow10 (s-b.scale) else b.n
  (ax,bx,s)

def Number.add (x y : Number) : Number :=
  let (a,b,s) := align x y
  ⟨a+b,s⟩

def Number.sub (x y : Number) : Number :=
  let (a,b,s) := align x y
  ⟨a-b,s⟩

def Number.neg (x : Number) : Number := ⟨-x.n,x.scale⟩

def Number.cmp (x y : Number) : ℤ :=
  let (a,b,_) := align x y
  (a-b).sign

def Number.withScale (x : Number) (scale : ℤ) : Number :=
  if x.scale<scale then ⟨x.n*pow10 (scale-x.scale),scale⟩
  else if x.scale>scale then ⟨x.n.tdiv (pow10 (x.scale-scale)),scale⟩
  else ⟨x.n,scale⟩

def Number.mul (x y : Number) (globalScale : ℤ) : Number :=
  let s := x.scale+y.scale
  let low := if y.scale>x.scale then y.scale else x.scale
  let low := if globalScale>low then globalScale else low
  if s>low then ⟨(x.n*y.n).tdiv (pow10 (s-low)),low⟩ else ⟨x.n*y.n,s⟩

def Number.div (x y : Number) (scale : ℤ) : Except NumberError Number :=
  if y.sign=0 then .error .divideByZero
  else .ok ⟨(x.n*pow10 (scale+y.scale)).tdiv (y.n*pow10 x.scale),scale⟩

def Number.mod (x y : Number) (scale : ℤ) : Except NumberError Number := do
  let q ← x.div y scale
  let target := if scale+y.scale>x.scale then scale+y.scale else x.scale
  let product := Number.withScale ⟨q.n*y.n,q.scale+y.scale⟩ target
  pure ((x.sub product).withScale target)

def isInt64 (v : ℤ) : Bool := -2^63≤v && v<2^63

def exponent (y : Number) : Except NumberError ℤ :=
  if y.scale≠0 ∧ y.n.tmod (pow10 y.scale)≠0 then .error .nonIntegerExponent
  else
    let e := if y.scale≠0 then y.n.tdiv (pow10 y.scale) else y.n
    if isInt64 e then .ok e else .error .exponentTooLarge

def bigExp (x e : ℤ) : ℤ := if e≤0 then 1 else x^e.toNat

/-- `Pow`; `none` is the division of a power of ten by zero, which panics. -/
def Number.pow (x y : Number) (globalScale : ℤ) : Option (Except NumberError Number) :=
  match exponent y with
  | .error err => some (.error err)
  | .ok 0 => some (.ok (fromInt64 1))
  | .ok e =>
    let magnitude := if e<0 then wrap64 (-e) else e
    let n := bigExp x.n magnitude
    if e<0 then
      let decimalPower := wrap64 (x.scale*magnitude+globalScale)
      if decimalPower<0 then some (.error .scaleTooLarge)
      else if n=0 then none
      else some (.ok ⟨(pow10 decimalPower).tdiv n,globalScale⟩)
    else
      let s := wrap64 (x.scale*magnitude)
      let maxs := if x.scale>globalScale then x.scale else globalScale
      if s>maxs then some (.ok ⟨n.tdiv (pow10 (s-maxs)),maxs⟩) else some (.ok ⟨n,s⟩)

def Number.sqrt (x : Number) (scale : ℤ) : Except NumberError Number :=
  if x.sign<0 then .error .negativeRoot
  else
    let target := if x.scale>scale then x.scale else scale
    let p := 2*target-x.scale
    let n := if p≥0 then x.n*pow10 p else x.n.tdiv (pow10 (-p))
    .ok ⟨n.sqrt,target⟩

def Number.length (x : Number) : ℤ :=
  if x.n=0 ∧ x.scale>0 then x.scale else (digits x.n.natAbs).length

def digitValue (r : UInt8) : Option ℤ :=
  if 48≤r ∧ r≤57 then some (r.toNat-48)
  else if 65≤r ∧ r≤70 then some (r.toNat-65+10)
  else none

def upper (s : Bytes) : Bytes := s.map fun r => if 97≤r ∧ r≤122 then r-32 else r

/-- The digit loop of `ParseNumber`; a digit that is too large counts as the largest. -/
def parseDigits (base : ℤ) : Bytes→ℤ→Except NumberError ℤ
  | [],n => .ok n
  | r::s,n =>
    match digitValue r with
    | none => .error (.invalidDigit r)
    | some d => parseDigits base s (n*base+if d≥base then base-1 else d)

/-- The part of `ParseNumber` after the text is cut at its point. -/
def parseParts (base : ℤ) (whole frac : Bytes) : Except NumberError Number := do
  let whole := if whole=[] then ascii "0" else whole
  let n ← parseDigits base (whole++frac) 0
  let scale : ℤ := frac.length
  if base=10 then pure ⟨n,scale⟩
  else if frac=[] then pure ⟨n,0⟩
  else
    let den := base^frac.length
    pure ⟨n.tdiv den*pow10 scale+(n.tmod den*pow10 scale).tdiv den,scale⟩

def parseNumber (s : Bytes) (base : ℤ) : Except NumberError Number :=
  if base<2 ∨ base>16 then .error (.invalidBase base)
  else
    match s.splitOn 46 with
    | [whole] => parseParts base (upper whole) []
    | [whole,frac] => parseParts base (upper whole) (upper frac)
    | _ => .error (.invalidNumber s)

def formatDigit (base d : ℕ) : Bytes :=
  if base≤16 then ((ascii "0123456789ABCDEF").drop d).take 1
  else List.replicate ((digits (base-1)).length-(digits d).length) 48++digits d

/-- The digits of the whole part, the least one first; a turn divides by the base. -/
def wholeDigits (base : ℕ) : ℕ→ℕ→List Bytes
  | 0,_ => []
  | fuel+1,v => if v=0 then [] else formatDigit base (v%base)::wholeDigits base fuel (v/base)

/-- The least number of digits whose capacity reaches `bound`. -/
def capacityDigits (base bound : ℕ) : ℕ→ℕ→ℕ→ℕ
  | 0,_,d => d
  | fuel+1,capacity,d =>
    if capacity<bound then capacityDigits base bound fuel (capacity*base) (d+1) else d

/-- The digits of the fraction `rem / den`. -/
def fractionDigits (base den : ℕ) : ℕ→ℕ→List Bytes
  | 0,_ => []
  | d+1,rem =>
    formatDigit base (rem*base/den)::fractionDigits base den d (rem*base%den)

/-- `StringBase` for another base than ten. -/
def stringOther (x : Number) (base : ℕ) : Bytes :=
  let n := x.n.natAbs
  let den := (pow10 x.scale).toNat
  let sep : Bytes := if base>16 then [32] else []
  let result := sep.intercalate (wholeDigits base (n/den) (n/den)).reverse
  let result := if base>16 ∧ result≠[] then 32::result else result
  let result :=
    if x.scale>0 then
      let count := capacityDigits base den (4*x.scale.toNat) 1 0
      result++46::sep.intercalate (fractionDigits base den count (n%den))
    else result
  if x.n<0 then 45::result else result

/-- `StringBase` for base ten; a negative scale slices past the digits. -/
def stringTen (x : Number) : Option Bytes :=
  let a := digits x.n.natAbs
  let minus : Bytes := if x.n<0 then [45] else []
  if x.scale=0 then some (minus++a)
  else if x.scale<0 then none
  else
    let scale := x.scale.toNat
    let a := if a.length ≤ scale then List.replicate (scale-a.length+1) 48++a else a
    let i := a.length-scale
    -- a proper fraction has no leading zero
    if i=1 ∧ a.head?=some 48 then some (minus++46::a.tail)
    else some (minus++a.take i++46::a.drop i)

/-- `StringBase`; `none` is a slice out of range. -/
def Number.stringBase (x : Number) (base : ℤ) : Option Bytes :=
  let base := if base<2 ∨ base>maxBase then 10 else base
  if x.n=0 then some (ascii "0")
  else if base≠10 then some (stringOther x base.toNat)
  else stringTen x

/-- The loop of `wrappedStringBase`: a continued line carries 68 bytes. -/
def wrapLines : ℕ→Bytes→Bytes
  | 0,s => s
  | fuel+1,s =>
    if s.length>68 then s.take 68++ascii "\\\n" ++ wrapLines fuel (s.drop 68) else s

def Number.wrappedStringBase (x : Number) (base : ℤ) : Option Bytes :=
  (x.stringBase base).map fun s => wrapLines s.length s

example : parseNumber (ascii "1F.8") 16=.ok ⟨315,1⟩ := by decide

example : Number.stringBase ⟨-5,2⟩ 10=some (ascii "-.05") := by decide

def Number.value (x : Number) : ℚ := x.n/10^x.scale

theorem pow10_cast {k : ℤ} (h : 0≤k) : ((pow10 k : ℤ) : ℚ)=10^k := by
  obtain ⟨m,rfl⟩ := Int.eq_ofNat_of_zero_le h
  unfold pow10
  split
  · have hm : m=0 := by omega
    simp [hm]
  · simp

theorem pow10_zero : pow10 0=1 := rfl

variable {s : ℤ} {x : Number}

theorem value_widen (n : ℤ) {t : ℤ} (h : s≤t) :
    Number.value ⟨n*pow10 (t-s),t⟩=Number.value ⟨n,s⟩ := by
  have hten : (10 : ℚ)≠0 := by norm_num
  simp only [Number.value]
  rw [Int.cast_mul,pow10_cast (by omega),zpow_sub₀ hten]
  field_simp

theorem align_spec (x y : Number) : ∃a b,align x y=(a,b,max x.scale y.scale) ∧
      Number.value ⟨a,max x.scale y.scale⟩=x.value ∧
      Number.value ⟨b,max x.scale y.scale⟩=y.value := by
  have hs : (if y.scale>x.scale then y.scale else x.scale)=max x.scale y.scale := by split <;> omega
  -- a side that has the common scale already is multiplied by one
  have hwide : ∀n s : ℤ,(if s < max x.scale y.scale then n*pow10 (max x.scale y.scale-s) else n) =
      n*pow10 (max x.scale y.scale-s) ∨ s>max x.scale y.scale := by
    intro n s
    rcases lt_trichotomy s (max x.scale y.scale) with h | h | h
    · exact .inl (if_pos h)
    · refine .inl ?_
      rw [if_neg (by omega),h,sub_self,pow10_zero,mul_one]
    · exact .inr h
  refine ⟨x.n*pow10 (max x.scale y.scale-x.scale),y.n*pow10 (max x.scale y.scale-y.scale),
    ?_,value_widen x.n (le_max_left _ _),value_widen y.n (le_max_right _ _)⟩
  simp only [align,hs]
  rw [(hwide x.n x.scale).resolve_right (by omega),(hwide y.n y.scale).resolve_right (by omega)]

theorem add_spec (x y : Number) :
    (x.add y).scale=max x.scale y.scale ∧ (x.add y).value=x.value+y.value := by
  obtain ⟨a,b,h,ha,hb⟩ := align_spec x y
  simp only [Number.add,h]
  refine ⟨trivial,?_⟩
  rw [←ha,←hb]
  simp only [Number.value]
  rw [Int.cast_add,add_div]

theorem sub_spec (x y : Number) :
    (x.sub y).scale=max x.scale y.scale ∧ (x.sub y).value=x.value-y.value := by
  obtain ⟨a,b,h,ha,hb⟩ := align_spec x y
  simp only [Number.sub,h]
  refine ⟨trivial,?_⟩
  rw [←ha,←hb]
  simp only [Number.value]
  rw [Int.cast_sub,sub_div]

theorem withScale_of_le (h : x.scale ≤ s) :
    (x.withScale s).scale=s ∧ (x.withScale s).value=x.value := by
  unfold Number.withScale
  rcases h.lt_or_eq with h | h
  · rw [if_pos h]
    exact ⟨rfl,value_widen x.n h.le⟩
  · rw [if_neg (by omega),if_neg (by omega),←h]
    exact ⟨rfl,rfl⟩

theorem value_tdiv (n : ℤ) {t : ℤ} (h : s≤t) :
    Number.value ⟨n.tdiv (pow10 (t-s)),s⟩=truncateAt (10^s) (Number.value ⟨n,t⟩) := by
  have hten : (10 : ℚ)≠0 := by norm_num
  have hq : (n : ℚ)/10^t*10^s=n/(pow10 (t-s) : ℤ) := by
    rw [pow10_cast (by omega),zpow_sub₀ hten]
    field_simp
  simp only [Number.value,truncateAt]
  rw [hq,toward_div]

theorem truncateAt_value (n : ℤ) (s : ℤ) :
    truncateAt (10^s) (Number.value ⟨n,s⟩)=Number.value ⟨n,s⟩ := by
  simpa [pow10_zero] using (value_tdiv n (le_refl s)).symm

theorem value_mul (x y : Number) : Number.value ⟨x.n*y.n,x.scale+y.scale⟩=x.value*y.value := by
  simp only [Number.value]
  rw [Int.cast_mul,zpow_add₀ (by norm_num),mul_div_mul_comm]

theorem mul_spec (x y : Number) (s : ℤ) :
    (x.mul y s).scale=min (x.scale+y.scale) (max s (max x.scale y.scale)) ∧
      (x.mul y s).value=truncateAt (10^(x.mul y s).scale) (x.value*y.value) := by
  unfold Number.mul
  simp only
  have hlow : (if s>(if y.scale>x.scale then y.scale else x.scale) then s
      else if y.scale>x.scale then y.scale else x.scale)=max s (max x.scale y.scale) := by
    split_ifs <;> omega
  rw [hlow,←value_mul]
  split_ifs with h
  · exact ⟨(min_eq_right h.le).symm,value_tdiv _ h.le⟩
  · exact ⟨(min_eq_left (not_lt.mp h)).symm,(truncateAt_value _ _).symm⟩

theorem div_spec {y : Number} (hx : 0≤x.scale) (hy : 0≤y.scale) (hs : 0 ≤ s) (h : y.n≠0) :
    ∃q,x.div y s=.ok q ∧ q.scale=s ∧ q.value=truncateAt (10^s) (x.value/y.value) := by
  refine ⟨_,if_neg (by simpa [Number.sign] using h),rfl,?_⟩
  have hten : (10 : ℚ)≠0 := by norm_num
  have hq : x.value/y.value*10^s =
      ((x.n*pow10 (s+y.scale) : ℤ) : ℚ)/((y.n*pow10 x.scale : ℤ) : ℚ) := by
    simp only [Number.value]
    rw [Int.cast_mul,Int.cast_mul,pow10_cast (by omega),pow10_cast hx,zpow_add₀ hten]
    field_simp
  rw [truncateAt,hq,toward_div]
  rfl

/-- The remainder, from the quotient that `Div` truncates. -/
theorem mod_spec {y : Number} {q : Number} (hq : x.div y s=.ok q) (hs : q.scale=s) :
    ∃r,x.mod y s=.ok r ∧ r.scale=max (s+y.scale) x.scale ∧ r.value=x.value-q.value*y.value := by
  have htarget : (if s+y.scale>x.scale then s+y.scale else x.scale) =
      max (s+y.scale) x.scale := by
    split <;> omega
  unfold Number.mod
  rw [hq]
  simp only [htarget]
  obtain ⟨hp,hpv⟩ := withScale_of_le (x := ⟨q.n*y.n,q.scale+y.scale⟩)
    (s := max (s+y.scale) x.scale) (by simp only; omega)
  obtain ⟨hd,hdv⟩ := sub_spec x (Number.withScale ⟨q.n*y.n,q.scale+y.scale⟩
    (max (s+y.scale) x.scale))
  obtain ⟨hr,hrv⟩ := withScale_of_le (x := x.sub (Number.withScale ⟨q.n*y.n,q.scale+y.scale⟩
    (max (s+y.scale) x.scale))) (s := max (s+y.scale) x.scale) (by omega)
  refine ⟨_,rfl,hr,?_⟩
  rw [hrv,hdv,hpv,value_mul]

/-- What is left of a truncated quotient has the sign of the dividend or is zero. -/
theorem sign_remainder {x y d : ℚ} (hy : y≠0) (hpos : 0≤x/y→0≤d) (hneg : x/y≤0→d≤0) :
    d*y=0 ∨ SignType.sign (d*y)=SignType.sign x := by
  have hx : x=x/y*y := by field_simp
  rcases eq_or_ne d 0 with rfl | hd
  · exact .inl (zero_mul y)
  refine .inr ?_
  rw [hx,sign_mul,sign_mul]
  rcases lt_trichotomy (x/y) 0 with h | h | h
  · rw [sign_neg h,sign_neg (lt_of_le_of_ne (hneg h.le) hd)]
  · exact absurd (le_antisymm (hneg h.le) (hpos h.ge)) hd
  · rw [sign_pos h,sign_pos (lt_of_le_of_ne (hpos h.le) hd.symm)]

/-- Sums are exact, products and quotients are truncated toward zero at their scale, and the
remainder is what the truncated quotient leaves. -/
theorem arithmetic_exact (x y : Number) (hx : 0≤x.scale) (hy : 0≤y.scale) (s : ℤ) (hs : 0 ≤ s) :
    ((x.add y).scale=max x.scale y.scale ∧ (x.add y).value=x.value+y.value) ∧
      ((x.sub y).scale=max x.scale y.scale ∧ (x.sub y).value=x.value-y.value) ∧
      ((x.mul y s).scale=min (x.scale+y.scale) (max s (max x.scale y.scale)) ∧
        (x.mul y s).value=truncateAt (10^(x.mul y s).scale) (x.value*y.value)) ∧
      (y.value≠0→∃q r,x.div y s=.ok q ∧ x.mod y s=.ok r ∧ q.scale=s ∧
        q.value=truncateAt (10^s) (x.value/y.value) ∧
        r.scale=max (s+y.scale) x.scale ∧ x.value=q.value*y.value+r.value ∧
        |r.value| < |y.value| * 10^(-s) ∧
        (r.value=0 ∨ SignType.sign r.value=SignType.sign x.value)) := by
  refine ⟨add_spec x y,sub_spec x y,mul_spec x y s,fun hval => ?_⟩
  have hn : y.n≠0 := by
    rintro h
    simp [Number.value,h] at hval
  obtain ⟨q,hq,hqs,hqv⟩ := div_spec hx hy hs hn
  obtain ⟨r,hr,hrs,hrv⟩ := mod_spec hq hqs
  obtain ⟨habs,hpos,hneg⟩ := sub_truncateAt (u := (10 : ℚ)^s)
    (zpow_pos (by norm_num) s)
  have hrem : r.value=(x.value/y.value-truncateAt (10^s) (x.value/y.value))*y.value := by
    rw [hrv,hqv]
    field_simp
  refine ⟨q,r,hq,hr,hqs,hqv,hrs,by rw [hrv]; ring,?_,?_⟩
  · rw [hrem,abs_mul,mul_comm,zpow_neg,←one_div]
    exact mul_lt_mul_of_pos_left habs (abs_pos.mpr hval)
  · rw [hrem]
    exact sign_remainder hval hpos hneg

/-- `7.5 % 0.2` at scale 1. -/
theorem arithmetic_exact_tenths :
    ∃q r,Number.div ⟨75,1⟩ ⟨2,1⟩ 1=.ok q ∧ Number.mod ⟨75,1⟩ ⟨2,1⟩ 1=.ok r ∧
      (⟨75,1⟩ : Number).value=q.value*(⟨2,1⟩ : Number).value+r.value := by
  obtain ⟨q,r,hq,hr,-,-,-,h,-⟩ := (arithmetic_exact ⟨75,1⟩ ⟨2,1⟩ (by decide) (by decide) 1
    (by decide)).2.2.2 (by norm_num [Number.value])
  exact ⟨q,r,hq,hr,h⟩

end Coreutils.BcNumber
